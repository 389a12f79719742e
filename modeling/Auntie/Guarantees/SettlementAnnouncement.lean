import Auntie.Guarantees.SettlementOffer

/-!
# One announcement

The players hear of the settlement before `ecall_clear_contract` returns, and the host may stop
the call between two of them. Whatever becomes of the call, what has been sent offers one
settlement, and no other call of the run sends anything of the kind.
-/

namespace Auntie.Guarantees.SettlementAnnouncement
open Auntie.Source Auntie.Source.Operator Auntie.Interaction
open Blocks (Digest)
open Program (Within)
open SettlementOffer

section Announcement
variable {build : Build} {globals : Globals}

/-- What the messages of a call of `ecall_clear_contract` offer, whether it returns or not. -/
structure Announces (build : Build) (globals : Globals) (collateralTransaction merklePaths : Bytes)
    (events : List (Event (Call Callback))) (offer : Offer) : Prop where
  collateral : offer.collateralTransaction = collateralTransaction
  contributed : List.Forall₂ (Contribution.From globals.players events)
    (List.range build.numPlayers) offer.contributions
  evaluated : offer.Evaluated build
  created : offer.Created build merklePaths events
  hashed : .answered (.zcashHashTransaction offer.settlement) (offer.sighash, offer.txid) ∈ events
  announced : offer.Announced build globals events

/-- Nothing has been sent, or all of it offers one settlement. -/
def Told (build : Build) (globals : Globals) (collateralTransaction merklePaths : Bytes)
    (events : List (Event (Call Callback))) : Prop :=
  sentIn events = [] ∨ ∃ offer, Announces build globals collateralTransaction merklePaths events offer

/-- Nothing has been sent, or all of it offers the settlement created from these arrays. -/
def Tells (build : Build) (globals : Globals) (collateralTransaction merklePaths : Bytes)
    (memo : FixedBytes 512) (collected : Collected) (evaluation : Evaluation)
    (events : List (Event (Call Callback))) : Prop :=
  sentIn events = [] ∨ ∃ settlement sighash txid,
    .answered (.zcashCreateTransaction collected.depositTransactions
      (operatorPayout build (collected.depositAmounts.headD 0) :: evaluation.payouts)
      collected.payoutAddresses collected.advices merklePaths memo) (some settlement) ∈ events ∧
    .answered (.zcashHashTransaction settlement) (sighash, txid) ∈ events ∧
    ∀ msg channel, (msg, channel) ∈ sentIn events →
      ClearContractDecoding.Builds build.numPlayers globals sighash txid
        (evaluation.outputs.map Buffer.contents)
        (collateralTransaction :: collected.rawDepositTransactions.map Buffer.contents)
        (.auntieMsgSend msg channel : Call Callback Int32)

theorem sends_build {numPlayers : Nat} {sighash txid : Digest}
    {outputs depositTransactions : List Bytes} {last : Globals}
    {events : List (Event (Call Callback))} {result : Option Int32}
    (hexec : Exec (sendClearContract sighash txid outputs depositTransactions
      (List.range numPlayers)) globals events last result) :
    ∀ msg channel, (msg, channel) ∈ sentIn events →
      ClearContractDecoding.Builds numPlayers globals sighash txid outputs depositTransactions
        (.auntieMsgSend msg channel : Call Callback Int32) := by
  intro msg channel hsent
  have hbuilds : wp (ClearContractDecoding.building numPlayers globals sighash txid outputs
      depositTransactions) (fun _ last _ => last = globals)
      (sendClearContract sighash txid outputs depositTransactions (List.range numPlayers))
      globals () :=
    ClearContractDecoding.sendClearContract_builds numPlayers sighash txid outputs
      depositTransactions fun i => List.mem_range.mp
  obtain ⟨_, _, hsafe⟩ := hexec.issued_safe hbuilds (mem_sentIn.mp hsent)
  exact hsafe

/-- Code that sends nothing keeps what holds of the messages. -/
theorem silent_stops {α : Type} {p : Code α} {knows : List (Event (Call Callback)) → Prop}
    {last : Globals} {earlier : List (Event (Call Callback))}
    (h : p.Within Silent fun _ => True)
    (hknows : ∀ later, sentIn later = [] → knows (earlier ++ later)) :
    wp (stopping fun _ => knows) (fun _ _ => knows) p last earlier :=
  wp_stopping_exec (fun _ _ hexec => hknows _ (sentIn_eq_nil h hexec trivial))
    fun _ _ _ hexec => hknows _ (sentIn_eq_nil h hexec trivial)

theorem signSettlement_silent (advices : List Pointer) (sighash : Digest) :
    (signSettlement advices sighash).Within Silent fun _ => True :=
  signSettlement_within silent_of_internal (fun _ _ _ => rfl) (fun _ _ _ => trivial) advices sighash

theorem issueSettlement_tells (context : Pointer) (collateralTransaction merklePaths : Bytes)
    (memo : FixedBytes 512) (collected : Collected) (evaluation : Evaluation) :
    wp (stopping fun _ => Tells build globals collateralTransaction merklePaths memo collected evaluation)
      (fun _ _ => Tells build globals collateralTransaction merklePaths memo collected evaluation)
      (issueSettlement build context collateralTransaction merklePaths memo collected evaluation)
      globals [] := by
  rw [issueSettlement, wp_bind, wp_stopping_issue]
  refine ⟨.inl rfl, fun settlement => ?_⟩
  rw [wp_bind, wp_modify]
  cases settlement with
  | none => exact .inl rfl
  | some settlement =>
    rw [wp_bind, wp_stopping_issue]
    refine ⟨.inl rfl, fun hashes => ?_⟩
    obtain ⟨sighash, txid⟩ := hashes
    have htells : ∀ (last : Globals) (events later : List (Event (Call Callback)))
        (result : Option Int32), Exec (sendClearContract sighash txid
          (evaluation.outputs.map Buffer.contents)
          (collateralTransaction :: collected.rawDepositTransactions.map Buffer.contents)
          (List.range build.numPlayers)) { globals with unauthorizedSettlement := some settlement }
          events last result → sentIn later = [] →
        Tells build globals collateralTransaction merklePaths memo collected evaluation
          (([] ++ [.issued (.zcashCreateTransaction collected.depositTransactions
              (operatorPayout build (collected.depositAmounts.headD 0) :: evaluation.payouts)
              collected.payoutAddresses collected.advices merklePaths memo),
            .answered (.zcashCreateTransaction collected.depositTransactions
              (operatorPayout build (collected.depositAmounts.headD 0) :: evaluation.payouts)
              collected.payoutAddresses collected.advices merklePaths memo) (some settlement)] ++
            [.issued (.zcashHashTransaction settlement),
              .answered (.zcashHashTransaction settlement) (sighash, txid)]) ++ events ++ later) := by
      intro last events later result hexec hlater
      refine .inr ⟨settlement, sighash, txid, by simp, by simp, fun msg channel hsent => ?_⟩
      rw [sentIn_append, sentIn_append, hlater, List.append_nil] at hsent
      exact sends_build hexec msg channel hsent
    refine wp_stopping_bind ?_ ?_
    · intro last events hexec
      have hstops := htells last events [] none hexec rfl
      rwa [List.append_nil] at hstops
    · intro ret last events hexec
      refine silent_stops ?_ (htells last events · (some ret) hexec)
      repeat' with_reducible first
        | exact outputDeposits_within (fun _ _ => rfl) _ _
        | exact signSettlement_silent _ _
        | intro _
        | apply Within.value
        | apply Within.bind
        | split

/-- What the arrays lead to is an offer. -/
theorem Tells.announces {collateralTransaction merklePaths : Bytes} {memo : FixedBytes 512}
    {transaction payoutAddress advice : Pointer} {collateral : Nat} {collected : Collected}
    {contributions : List Contribution} {evaluation : Evaluation}
    {earlier events : List (Event (Call Callback))}
    (h : Tells build globals collateralTransaction merklePaths memo collected evaluation events)
    (hcollects : Collects build
      (DepositDecoding.operatorEntries payoutAddress advice transaction collateral) collected
      contributions)
    (hcontributed : List.Forall₂ (Contribution.From globals.players earlier)
      (List.range build.numPlayers) contributions)
    (htransaction : .answered (.zcashImportTransaction collateralTransaction) (some transaction) ∈
      earlier)
    (hquiet : sentIn earlier = []) (hret : evaluation.ret = 0)
    (hevaluation : ∃ events last, Exec (evaluateFunctionality build.numPlayers
      collected.depositAmounts.tail) globals events last (some evaluation)) :
    Told build globals collateralTransaction merklePaths (earlier ++ events) := by
  rcases h with h | ⟨settlement, sighash, txid, hcreated, hhashed, hannounced⟩
  · refine .inl ?_
    rw [sentIn_append, hquiet, h]
    rfl
  · have hissued : Issued build globals collateralTransaction merklePaths memo collected evaluation
        settlement sighash txid { globals with unauthorizedSettlement := some settlement } events :=
      ⟨hcreated, hhashed, hannounced, rfl⟩
    have hoffers := hissued.offers hcollects hcontributed htransaction hquiet hret hevaluation
    exact .inr ⟨_, rfl, hoffers.contributed, hoffers.evaluated, hoffers.created, hoffers.hashed,
      hoffers.announced⟩

theorem Told.append {collateralTransaction merklePaths : Bytes}
    {events later : List (Event (Call Callback))}
    (h : Told build globals collateralTransaction merklePaths events) (hquiet : sentIn later = []) :
    Told build globals collateralTransaction merklePaths (events ++ later) := by
  rcases h with h | ⟨offer, h⟩
  · refine .inl ?_
    rw [sentIn_append, h, hquiet]
    rfl
  · have hoffers : Offers build globals collateralTransaction merklePaths events
        { globals with unauthorizedSettlement := some offer.settlement } offer :=
      ⟨h.collateral, h.contributed, h.evaluated, h.created, h.hashed, h.announced, rfl⟩
    have hreleased := hoffers.released hquiet rfl
    exact .inr ⟨offer, hreleased.collateral, hreleased.contributed, hreleased.evaluated,
      hreleased.created, hreleased.hashed, hreleased.announced⟩

/-- With every deposit collected. -/
theorem settle_told (context : Pointer) {collateralTransaction merklePaths : Bytes}
    (memo : FixedBytes 512) {transaction payoutAddress advice : Pointer} {collateral : Nat}
    {collected : Collected} {contributions : List Contribution}
    {earlier : List (Event (Call Callback))}
    (hcollects : Collects build
      (DepositDecoding.operatorEntries payoutAddress advice transaction collateral) collected
      contributions)
    (hcontributed : List.Forall₂ (Contribution.From globals.players earlier)
      (List.range build.numPlayers) contributions)
    (htransaction : .answered (.zcashImportTransaction collateralTransaction) (some transaction) ∈
      earlier)
    (hquiet : sentIn earlier = []) :
    wp (stopping fun _ => Told build globals collateralTransaction merklePaths)
      (fun _ _ => Told build globals collateralTransaction merklePaths)
      (settle build context collateralTransaction merklePaths memo collected) globals earlier := by
  have hinternal : (evaluateFunctionality build.numPlayers collected.depositAmounts.tail).Within
      Call.Internal (globals = ·) := evaluateFunctionality_within _ _
  have hnothing : ∀ last events result, Exec (evaluateFunctionality build.numPlayers
      collected.depositAmounts.tail) globals events last result → sentIn (earlier ++ events) = [] := by
    intro last events result hexec
    rw [sentIn_append, hquiet, sentIn_eq_nil (hinternal.mono silent_of_internal) hexec rfl]
    rfl
  refine wp_stopping_bind (fun last events hexec => .inl (hnothing last events none hexec)) ?_
  intro evaluation last events hevaluation
  obtain rfl := hinternal.kept hevaluation rfl
  have hbefore := hnothing _ _ _ hevaluation
  rw [wp_ite]
  refine ⟨fun _ => .inl hbefore, fun hret => ?_⟩
  have htells : wp (stopping fun _ => Tells build globals collateralTransaction merklePaths memo
        collected evaluation)
      (fun _ _ => Tells build globals collateralTransaction merklePaths memo collected evaluation)
      (issueSettlement build context collateralTransaction merklePaths memo collected evaluation)
      globals [] :=
    issueSettlement_tells context collateralTransaction merklePaths memo collected evaluation
  have hmore : List.Forall₂ (Contribution.From globals.players (earlier ++ events))
      (List.range build.numPlayers) contributions :=
    hcontributed.imp fun _ _ h => h.mono (List.subset_append_left _ _)
  have hannounces : ∀ later, Tells build globals collateralTransaction merklePaths memo collected
      evaluation later → Told build globals collateralTransaction merklePaths
        (earlier ++ events ++ later) := fun later h =>
    h.announces hcollects hmore (List.mem_append_left _ htransaction) hbefore (not_not.mp hret)
      ⟨_, _, hevaluation⟩
  refine wp_stopping_bind (fun last later hexec => ?_) fun ret last later hexec => ?_
  · exact hannounces later ((hexec.stopped htells).2 rfl)
  · exact hannounces later ((hexec.stopped htells).1 ret rfl)

theorem clearContract_told (context : Pointer)
    (payoutAddress collateralTransaction merklePaths : Bytes) :
    wp (stopping fun _ => Told build globals collateralTransaction merklePaths)
      (fun _ _ => Told build globals collateralTransaction merklePaths)
      (clearContract build context payoutAddress collateralTransaction merklePaths) globals [] := by
  rw [clearContract, wp_bind, wp_stopping_issue]
  refine ⟨.inl rfl, fun memo => ?_⟩
  rw [wp_bind, wp_stopping_issue]
  refine ⟨.inl rfl, fun address => ?_⟩
  cases address with
  | none => exact .inl rfl
  | some address =>
    simp only [wp_bind, wp_get]
    cases globals.depositWallet with
    | none => exact wp_deref_none.mpr (.inl rfl)
    | some depositWallet =>
      rw [wp_deref_some, wp_stopping_issue]
      refine ⟨.inl rfl, fun advice => ?_⟩
      cases advice with
      | none => exact .inl rfl
      | some advice =>
        rw [wp_bind, wp_stopping_issue]
        refine ⟨.inl rfl, fun transaction => ?_⟩
        cases transaction with
        | none => exact .inl rfl
        | some transaction =>
          rw [wp_bind, wp_stopping_issue]
          refine ⟨.inl rfl, fun collateral => ?_⟩
          rw [wp_ite]
          refine ⟨fun _ => .inl rfl, fun _ => ?_⟩
          have hquiet : ∀ collected : Collected, (collectDeposits build
              (List.range build.numPlayers) collected).Within Silent fun _ => True :=
            collectDeposits_within silent_of_internal (fun _ => rfl) _ _
          refine wp_stopping_bind ?_ ?_
          · intro last events hexec
            refine .inl ?_
            rw [sentIn_append, sentIn_eq_nil (hquiet _) hexec trivial]
            rfl
          · intro result last collecting hcollecting
            obtain ⟨rfl, hcollected⟩ := hcollecting.taped (collectDeposits_collects _ _)
            have hcollectingQuiet := sentIn_eq_nil (hquiet _) hcollecting trivial
            rw [wp_ite]
            refine ⟨fun _ => .inl ?_, fun hret => ?_⟩
            · rw [sentIn_append, hcollectingQuiet]
              rfl
            · obtain ⟨contributions, hcollects, hcontributed⟩ := hcollected (not_not.mp hret)
              have hcollects : Collects build
                  (DepositDecoding.operatorEntries address advice transaction collateral) result.2
                  contributions := hcollects
              refine settle_told context memo hcollects ?_ (by simp) ?_
              · exact hcontributed.imp fun _ _ h => h.mono (List.subset_append_right _ _)
              · rw [sentIn_append, hcollectingQuiet]
                rfl

theorem ecallClearContractImpl_told (context : Pointer)
    (payoutAddress collateralTransaction merklePaths : Bytes) :
    wp (stopping fun _ => Told build globals collateralTransaction merklePaths)
      (fun _ _ => Told build globals collateralTransaction merklePaths)
      (ecallClearContractImpl build context payoutAddress collateralTransaction merklePaths)
      globals [] := by
  have hclear : wp (stopping fun _ => Told build globals collateralTransaction merklePaths)
      (fun _ _ => Told build globals collateralTransaction merklePaths)
      (clearContract build context payoutAddress collateralTransaction merklePaths) globals [] :=
    clearContract_told context payoutAddress collateralTransaction merklePaths
  refine wp_stopping_bind ?_ ?_
  · intro last events hexec
    exact (hexec.stopped hclear).2 rfl
  · intro result last events hexec
    have htold := (hexec.stopped hclear).1 result rfl
    refine silent_stops ?_ fun later hlater => htold.append hlater
    repeat' with_reducible first
      | exact (releaseObjects_within _ _).mono silent_of_internal
      | exact (freeBuffers_within _ _).mono silent_of_internal
      | intro _
      | apply Within.issue
      | apply Within.value
      | apply Within.get_bind
      | apply Within.update
      | apply Within.bind
      | split
    all_goals trivial

end Announcement

section Runs
variable {dep : Deployment}

/-- Whatever becomes of the call, what it has sent offers one settlement. -/
theorem announces_of_sent {step : Step (enclave dep)} (valid : step.Valid)
    (hclears : Clears step) {msg : Message} {channel : ChannelRef}
    (hsent : (msg, channel) ∈ sentIn step.events) :
    ∃ context payoutAddress collateralTransaction merklePaths offer,
      step.op = Ecall.ecallClearContract context payoutAddress collateralTransaction merklePaths ∧
      Announces dep.build step.before collateralTransaction merklePaths step.events offer := by
  obtain ⟨before, op, events, last, result⟩ := step
  obtain ⟨hstate, context, payoutAddress, collateralTransaction, merklePaths, hop⟩ := hclears
  cases hop
  have hspec : wp (stopping fun _ => Told dep.build before collateralTransaction merklePaths)
      (fun _ _ => Told dep.build before collateralTransaction merklePaths)
      (ecallClearContract dep context payoutAddress collateralTransaction merklePaths) before
      [] := by
    simp only [ecallClearContract, setState, wp_bind, wp_get, wp_ite, wp_pure, wp_modify]
    exact ⟨fun h => absurd hstate h,
      fun _ => ecallClearContractImpl_told context payoutAddress collateralTransaction merklePaths⟩
  have hexec : Exec (ecallClearContract dep context payoutAddress collateralTransaction merklePaths)
      before events last result := valid
  obtain ⟨hreturned, hwaiting⟩ := hexec.stopped hspec
  have htold : Told dep.build before collateralTransaction merklePaths events := by
    cases result with
    | none => exact hwaiting rfl
    | some ret => exact hreturned ret rfl
  rcases htold with hnone | ⟨offer, hannounces⟩
  · have hsent : (msg, channel) ∈ sentIn events := hsent
    rw [hnone] at hsent
    cases hsent
  · exact ⟨context, payoutAddress, collateralTransaction, merklePaths, offer, rfl, hannounces⟩

/-- All the clear-contract messages of a run are for one settlement. -/
theorem one_announcement {steps : List (Step (enclave dep))} {last : Globals}
    (trace : Trace (enclave dep) (initial dep) steps last) :
    (∀ step ∈ steps, ∀ msg channel, (msg, channel) ∈ sentIn step.events →
      msg.msgType ≠ msgClearContract) ∨
    ∃ clear ∈ steps, ∃ context payoutAddress merklePaths offer,
      clear.op = Ecall.ecallClearContract context payoutAddress offer.collateralTransaction
        merklePaths ∧
      Announces dep.build clear.before offer.collateralTransaction merklePaths clear.events offer ∧
      ∀ step ∈ steps, ∀ msg channel, (msg, channel) ∈ sentIn step.events →
        msg.msgType = msgClearContract →
        ClearContractDecoding.Builds dep.build.numPlayers clear.before offer.sighash offer.txid
          offer.outputs offer.depositTransactions
          (.auntieMsgSend msg channel : Call Callback Int32) := by
  by_cases hquiet : ∀ step ∈ steps, ∀ msg channel, (msg, channel) ∈ sentIn step.events →
      msg.msgType ≠ msgClearContract
  · exact .inl hquiet
  · simp only [not_forall, not_not] at hquiet
    obtain ⟨clear, hclear, msg, channel, hsent, htype⟩ := hquiet
    have hclears := clears_of_sent (trace.valid_of_mem hclear) hsent htype
    obtain ⟨context, payoutAddress, _, merklePaths, offer, hop, hannounces⟩ :=
      announces_of_sent (trace.valid_of_mem hclear) hclears hsent
    obtain rfl := hannounces.collateral
    refine .inr ⟨clear, hclear, context, payoutAddress, merklePaths, offer, hop, hannounces, ?_⟩
    intro step hstep msg' channel' hsent' htype'
    have hsame : step = clear := clears_unique trace hstep hclear
      (clears_of_sent (trace.valid_of_mem hstep) hsent' htype') hclears
    rw [hsame] at hsent'
    exact hannounces.announced msg' channel' hsent'

end Runs
end Auntie.Guarantees.SettlementAnnouncement
