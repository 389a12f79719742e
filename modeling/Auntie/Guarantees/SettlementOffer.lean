import Auntie.Guarantees.ClearContractDecoding
import Auntie.Guarantees.DepositDecoding

/-!
# The settlement the operator offers

`ecall_clear_contract` takes one message from each player, creates one settlement from what it
decodes, and sends every player the hash of that settlement with the deposit transactions it was
created from. What `ecall_finalize` authorizes later is the same settlement.
-/

namespace Auntie.Guarantees.SettlementOffer
open Auntie.Source Auntie.Source.Operator Auntie.Interaction
open Blocks (Digest)

section Collection

/-- What one player contributes: the message, and the objects imported from it. -/
structure Contribution where
  msg : ReceivedMessage
  transaction : Pointer
  payoutAddress : Pointer
  advice : Pointer

namespace Contribution

def depositTransaction (contribution : Contribution) : Bytes :=
  DepositAndInput.depositTransaction contribution.msg

/-- The amount less the fees. -/
def depositAmount (build : Build) (contribution : Contribution) : Nat :=
  sub64 (sub64 (DepositAndInput.depositAmount contribution.msg) build.minerFeePerParty)
    build.operatorFeePerPlayer

/-- The objects come from a message that arrived on the channel of the slot. -/
structure From (players : List (Option Player)) (events : List (Event (Call Callback))) (i : Nat)
    (contribution : Contribution) : Prop where
  received : ∃ player, players[i]?.join = some player ∧
    .answered (.auntieMsgReceive player.channel) (some contribution.msg) ∈ events
  msgType : contribution.msg.msgType = msgDepositAndInput
  transaction : .answered (.zcashImportTransaction contribution.depositTransaction)
    (some contribution.transaction) ∈ events
  payoutAddress : .answered (.zcashImportAddress (DepositAndInput.payoutAddress contribution.msg))
    (some contribution.payoutAddress) ∈ events
  advice : .answered (.zcashImportAdvice (DepositAndInput.advice contribution.msg))
    (some contribution.advice) ∈ events

theorem From.mono {players : List (Option Player)} {events later : List (Event (Call Callback))}
    {i : Nat} {contribution : Contribution} (h : contribution.From players events i)
    (hlater : events ⊆ later) : contribution.From players later i := by
  obtain ⟨player, hplayer, hreceived⟩ := h.received
  exact ⟨⟨player, hplayer, hlater hreceived⟩, h.msgType, hlater h.transaction,
    hlater h.payoutAddress, hlater h.advice⟩

end Contribution

/-- The contributions as the arrays hold them, behind what was there before. -/
structure Collects (build : Build) (before after : Collected)
    (contributions : List Contribution) : Prop where
  depositTransactions : after.depositTransactions =
    before.depositTransactions ++ contributions.map Contribution.transaction
  payoutAddresses : after.payoutAddresses =
    before.payoutAddresses ++ contributions.map Contribution.payoutAddress
  advices : after.advices = before.advices ++ contributions.map Contribution.advice
  depositAmounts : after.depositAmounts =
    before.depositAmounts ++ contributions.map (Contribution.depositAmount build)
  rawDepositTransactions : after.rawDepositTransactions.map Buffer.contents =
    before.rawDepositTransactions.map Buffer.contents ++
      contributions.map Contribution.depositTransaction

variable {build : Build} {globals : Globals} {collected : Collected}

theorem Collects.refl (collected : Collected) : Collects build collected collected [] := by
  constructor
  all_goals exact (List.append_nil _).symm

theorem Collects.trans {first second third : Collected} {contributions more : List Contribution}
    (h : Collects build first second contributions) (hmore : Collects build second third more) :
    Collects build first third (contributions ++ more) where
  depositTransactions := by
    rw [hmore.depositTransactions, h.depositTransactions, List.map_append, List.append_assoc]
  payoutAddresses := by
    rw [hmore.payoutAddresses, h.payoutAddresses, List.map_append, List.append_assoc]
  advices := by rw [hmore.advices, h.advices, List.map_append, List.append_assoc]
  depositAmounts := by
    rw [hmore.depositAmounts, h.depositAmounts, List.map_append, List.append_assoc]
  rawDepositTransactions := by
    rw [hmore.rawDepositTransactions, h.rawDepositTransactions, List.map_append,
      List.append_assoc]

/-- A message that is decoded adds one element to each array. -/
theorem decodeDeposit_collects (msg : ReceivedMessage) (collected : Collected) :
    wp tape (fun result last events => last = globals ∧ (result.1 = 0 →
        ∃ contribution : Contribution, contribution.msg = msg ∧
          Collects build collected result.2 [contribution] ∧
          .answered (.zcashImportTransaction contribution.depositTransaction)
            (some contribution.transaction) ∈ events ∧
          .answered (.zcashImportAddress (DepositAndInput.payoutAddress msg))
            (some contribution.payoutAddress) ∈ events ∧
          .answered (.zcashImportAdvice (DepositAndInput.advice msg))
            (some contribution.advice) ∈ events))
      (decodeDeposit build msg collected) globals [] := by
  simp only [decodeDeposit, wp_bind, wp_tape_issue]
  intro transaction
  cases transaction with
  | none => exact ⟨trivial, fun _ => ⟨rfl, fun h => absurd h einval_error⟩⟩
  | some transaction =>
    simp only [wp_bind, wp_tape_issue]
    intro raw
    cases raw with
    | none => exact ⟨trivial, fun _ => ⟨rfl, fun h => absurd h enomem_error⟩⟩
    | some raw =>
      simp only [decodeInput, wp_bind, wp_tape_issue, wp_ite, wp_pure]
      refine ⟨fun _ => ⟨trivial, fun h => absurd h einval_error⟩, fun _ input => ?_⟩
      cases input with
      | none => exact ⟨trivial, fun _ => ⟨rfl, fun h => absurd h enomem_error⟩⟩
      | some input =>
        simp only [decodeParty, wp_bind, wp_tape_issue]
        intro payoutAddress
        cases payoutAddress with
        | none => exact ⟨trivial, fun _ => ⟨rfl, fun h => absurd h einval_error⟩⟩
        | some payoutAddress =>
          simp only [wp_bind, wp_tape_issue]
          intro advice
          cases advice with
          | none => exact ⟨trivial, fun _ => ⟨rfl, fun h => absurd h einval_error⟩⟩
          | some advice =>
            simp only [wp_bind, wp_tape_issue, wp_pure]
            intro _
            refine ⟨trivial, fun _ => ⟨⟨msg, transaction, payoutAddress, advice⟩, rfl, ?_, ?_⟩⟩
            · exact ⟨rfl, rfl, rfl, rfl, by simp [Collected.addRawTransaction,
                Collected.addTransaction, Collected.addAmount, Collected.addInput,
                Collected.addPayoutAddress, Collected.addAdvice, Contribution.depositTransaction]⟩
            · simp [Contribution.depositTransaction]

/-- When the loop ends with zero, every player has contributed, in the order of the slots. -/
theorem collectDeposits_collects (indices : List Nat) (collected : Collected) :
    wp tape (fun result last events => last = globals ∧ (result.1 = 0 → ∃ contributions,
        Collects build collected result.2 contributions ∧
          List.Forall₂ (Contribution.From globals.players events) indices contributions))
      (collectDeposits build indices collected) globals [] := by
  induction indices generalizing collected with
  | nil => exact ⟨rfl, fun _ => ⟨[], .refl collected, .nil⟩⟩
  | cons i rest ih =>
    simp only [collectDeposits, playerAt, wp_bind, wp_get]
    cases hplayer : globals.players[i]?.join with
    | none => exact wp_deref_none.mpr trivial
    | some player =>
      rw [wp_deref_some, wp_tape_issue]
      intro msg
      cases msg with
      | none => exact ⟨rfl, fun h => absurd h eio_error⟩
      | some msg =>
        simp only [wp_bind, wp_tape_issue, wp_ite, wp_pure]
        refine ⟨fun _ _ => ⟨trivial, fun h => absurd h eio_error⟩, fun htype => ?_⟩
        refine wp_tape_from (decodeDeposit_collects msg collected) ?_
        rintro ⟨ret, decoded⟩ last events ⟨rfl, hdecoded⟩
        refine ⟨fun hret => ⟨rfl, fun h => absurd h hret⟩, fun hret => ?_⟩
        obtain ⟨contribution, rfl, hadds, htransaction, hpayoutAddress, hadvice⟩ :=
          hdecoded (not_not.mp hret)
        refine wp_tape_from (ih decoded) ?_
        rintro result last later ⟨rfl, hrest⟩
        refine ⟨rfl, fun hzero => ?_⟩
        obtain ⟨contributions, hcollects, hfrom⟩ := hrest hzero
        refine ⟨contribution :: contributions, hadds.trans hcollects, .cons ?_ ?_⟩
        · exact ⟨⟨player, hplayer, by simp⟩, not_not.mp htype, by simp [htransaction],
            by simp [hpayoutAddress], by simp [hadvice]⟩
        · exact hfrom.imp fun _ _ h => h.mono (List.subset_append_right _ _)

end Collection

section Offer

/-- The settlement, what it was created from and what the players are told of it. -/
structure Offer where
  collateralTransaction : Bytes
  contributions : List Contribution
  evaluation : Evaluation
  settlement : Pointer
  sighash : Digest
  txid : Digest

namespace Offer

def depositTransactions (offer : Offer) : List Bytes :=
  offer.collateralTransaction :: offer.contributions.map Contribution.depositTransaction

def outputs (offer : Offer) : List Bytes := offer.evaluation.outputs.map Buffer.contents

/-- The settlement was created from these arguments. -/
def Created (build : Build) (merklePaths : Bytes) (events : List (Event (Call Callback)))
    (offer : Offer) : Prop :=
  ∃ (transaction payoutAddress advice : Pointer) (collateral : Nat) (memo : FixedBytes 512),
    .answered (.zcashImportTransaction offer.collateralTransaction) (some transaction) ∈ events ∧
    .answered (.zcashCreateTransaction
      (transaction :: offer.contributions.map Contribution.transaction)
      (operatorPayout build collateral :: offer.evaluation.payouts)
      (payoutAddress :: offer.contributions.map Contribution.payoutAddress)
      (advice :: offer.contributions.map Contribution.advice) merklePaths memo)
      (some offer.settlement) ∈ events

/-- The outputs are those of the functionality on the amounts of the contributions. -/
def Evaluated (build : Build) (offer : Offer) : Prop :=
  offer.evaluation.ret = 0 ∧ ∃ globals events last,
    Exec (evaluateFunctionality build.numPlayers
      (offer.contributions.map (Contribution.depositAmount build))) globals events last
      (some offer.evaluation)

/-- Every message that was sent offers the settlement to the player of its channel. -/
def Announced (build : Build) (globals : Globals) (events : List (Event (Call Callback)))
    (offer : Offer) : Prop :=
  ∀ msg channel, (msg, channel) ∈ sentIn events →
    ClearContractDecoding.Builds build.numPlayers globals offer.sighash offer.txid offer.outputs
      offer.depositTransactions (.auntieMsgSend msg channel : Call Callback Int32)

end Offer

/-- What a call of `ecall_clear_contract` that returned zero has done. -/
structure Offers (build : Build) (globals : Globals) (collateralTransaction merklePaths : Bytes)
    (events : List (Event (Call Callback))) (last : Globals) (offer : Offer) : Prop where
  collateral : offer.collateralTransaction = collateralTransaction
  contributed : List.Forall₂ (Contribution.From globals.players events)
    (List.range build.numPlayers) offer.contributions
  evaluated : offer.Evaluated build
  created : offer.Created build merklePaths events
  hashed : .answered (.zcashHashTransaction offer.settlement) (offer.sighash, offer.txid) ∈ events
  announced : offer.Announced build globals events
  stored : last.unauthorizedSettlement = some offer.settlement

end Offer

section Sent
variable {Callback σ α : Type} {p : Source.Code Callback σ α} {keeps : σ → Prop}
  {state last : σ} {events : List (Event (Call Callback))} {result : Option α}

def Silent {Callback β : Type} (c : Call Callback β) : Prop := c.sends = []

theorem silent_of_internal {β : Type} (c : Call Callback β) (h : c.Internal) : Silent c := by
  cases c with
  | auntieMsgSend => exact absurd h id
  | _ => rfl

theorem sentIn_eq_nil (h : p.Within Silent keeps) (hexec : Exec p state events last result)
    (hstate : keeps state) : sentIn events = [] := by
  apply List.eq_nil_iff_forall_not_mem.mpr
  rintro ⟨msg, channel⟩ hsent
  have hsilent : Silent (.auntieMsgSend msg channel : Call Callback Int32) :=
    h.issued hexec hstate (mem_sentIn.mp hsent)
  cases hsilent

end Sent

section ClearContract
variable {build : Build} {globals : Globals}

/-- What the arrays lead to once the functionality has been evaluated. -/
structure Issued (build : Build) (globals : Globals) (collateralTransaction merklePaths : Bytes)
    (memo : FixedBytes 512) (collected : Collected) (evaluation : Evaluation)
    (settlement : Pointer) (sighash txid : Digest) (last : Globals)
    (events : List (Event (Call Callback))) : Prop where
  created : .answered (.zcashCreateTransaction collected.depositTransactions
    (operatorPayout build (collected.depositAmounts.headD 0) :: evaluation.payouts)
    collected.payoutAddresses collected.advices merklePaths memo) (some settlement) ∈ events
  hashed : .answered (.zcashHashTransaction settlement) (sighash, txid) ∈ events
  announced : ∀ msg channel, (msg, channel) ∈ sentIn events →
    ClearContractDecoding.Builds build.numPlayers globals sighash txid
      (evaluation.outputs.map Buffer.contents)
      (collateralTransaction :: collected.rawDepositTransactions.map Buffer.contents)
      (.auntieMsgSend msg channel : Call Callback Int32)
  stored : last.unauthorizedSettlement = some settlement

theorem signSettlement_keeps (advices : List Pointer) (sighash : Digest) :
    wp tape (fun _ last events => last.unauthorizedSettlement = globals.unauthorizedSettlement ∧
        sentIn events = [])
      (signSettlement advices sighash) globals [] := by
  simp only [signSettlement, wp_bind, wp_get]
  cases globals.depositWallet with
  | none => exact wp_deref_none.mpr trivial
  | some depositWallet =>
    rw [wp_deref_some]
    cases advices.head? with
    | none => exact wp_deref_none.mpr trivial
    | some advice =>
      simp only [wp_deref_some, wp_tape_issue, wp_modify, wp_ite, wp_pure]
      exact fun _ => ⟨fun _ => ⟨trivial, rfl⟩, fun _ => ⟨trivial, rfl⟩⟩

theorem sendClearContract_announces {numPlayers : Nat} {sighash txid : Digest}
    {outputs depositTransactions : List Bytes} {last : Globals}
    {events : List (Event (Call Callback))} {ret : Int32}
    (hexec : Exec (sendClearContract sighash txid outputs depositTransactions
      (List.range numPlayers)) globals events last (some ret)) :
    last = globals ∧ ∀ msg channel, (msg, channel) ∈ sentIn events →
      ClearContractDecoding.Builds numPlayers globals sighash txid outputs depositTransactions
        (.auntieMsgSend msg channel : Call Callback Int32) := by
  have hbuilds : wp (ClearContractDecoding.building numPlayers globals sighash txid outputs
      depositTransactions) (fun _ last _ => last = globals)
      (sendClearContract sighash txid outputs depositTransactions (List.range numPlayers))
      globals () :=
    ClearContractDecoding.sendClearContract_builds numPlayers sighash txid outputs
      depositTransactions fun i => List.mem_range.mp
  refine ⟨hexec.returned hbuilds, fun msg channel hsent => ?_⟩
  obtain ⟨_, _, hsafe⟩ := hexec.issued_safe hbuilds (mem_sentIn.mp hsent)
  exact hsafe

theorem issueSettlement_issues (context : Pointer) (collateralTransaction merklePaths : Bytes)
    (memo : FixedBytes 512) (collected : Collected) (evaluation : Evaluation) :
    wp tape (fun ret last events => ret = 0 → ∃ settlement sighash txid, Issued build globals
        collateralTransaction merklePaths memo collected evaluation settlement sighash txid last
        events)
      (issueSettlement build context collateralTransaction merklePaths memo collected evaluation)
      globals [] := by
  rw [issueSettlement, wp_bind, wp_tape_issue]
  intro settlement
  rw [wp_bind, wp_modify]
  cases settlement with
  | none => exact fun h => absurd h efault_error
  | some settlement =>
    rw [wp_bind, wp_tape_issue]
    rintro ⟨sighash, txid⟩
    refine wp_tape_bind fun ret last events hsends => ?_
    obtain ⟨rfl, hannounced⟩ := sendClearContract_announces hsends
    rw [wp_ite]
    refine ⟨fun hret h => absurd h hret, fun _ => ?_⟩
    refine wp_tape_bind fun ret last outputs houtputs => ?_
    have hquiet : (outputDeposits context
        (collected.rawDepositTransactions.map Buffer.contents)).Within Silent
        ({ globals with unauthorizedSettlement := some settlement } = ·) :=
      outputDeposits_within (fun _ _ => rfl) _ _
    obtain rfl := hquiet.kept houtputs rfl
    rw [wp_ite]
    refine ⟨fun hret h => absurd h hret, fun _ => ?_⟩
    refine wp_tape_from (signSettlement_keeps collected.advices sighash) ?_
    rintro ret last signing ⟨hstored, hsigning⟩ _
    refine ⟨settlement, sighash, txid, ?_, ?_, ?_, hstored⟩
    · simp
    · simp
    · intro msg channel hsent
      rw [sentIn_append, sentIn_append, sentIn_append, hsigning,
        sentIn_eq_nil hquiet houtputs rfl, List.append_nil, List.append_nil] at hsent
      exact hannounced msg channel hsent

/-- With every deposit collected. -/
theorem settle_issues (context : Pointer) (collateralTransaction merklePaths : Bytes)
    (memo : FixedBytes 512) (collected : Collected) :
    wp tape (fun result last events => result.1 = 0 → ∃ evaluation settlement sighash txid,
        evaluation.ret = 0 ∧
        (∃ events last, Exec (evaluateFunctionality build.numPlayers collected.depositAmounts.tail)
          globals events last (some evaluation)) ∧
        Issued build globals collateralTransaction merklePaths memo collected evaluation settlement
          sighash txid last events)
      (settle build context collateralTransaction merklePaths memo collected) globals [] := by
  refine wp_tape_bind fun evaluation last events hevaluation => ?_
  have hinternal : (evaluateFunctionality build.numPlayers collected.depositAmounts.tail).Within
      Call.Internal (globals = ·) := evaluateFunctionality_within _ _
  obtain rfl := hinternal.kept hevaluation rfl
  have hquiet := sentIn_eq_nil (hinternal.mono silent_of_internal) hevaluation rfl
  rw [wp_ite]
  refine ⟨fun hret h => absurd h hret, fun hret => ?_⟩
  rw [wp_bind]
  refine wp_tape_from (issueSettlement_issues context collateralTransaction merklePaths memo
    collected evaluation) ?_
  intro ret last later hissued hzero
  obtain ⟨settlement, sighash, txid, hissued⟩ := hissued hzero
  refine ⟨evaluation, settlement, sighash, txid, not_not.mp hret, ⟨_, _, hevaluation⟩, ?_⟩
  constructor
  · exact List.mem_append_right _ hissued.created
  · exact List.mem_append_right _ hissued.hashed
  · intro msg channel hsent
    rw [sentIn_append, List.nil_append, hquiet, List.nil_append] at hsent
    exact hissued.announced msg channel hsent
  · exact hissued.stored

/-- What was collected is what is offered. -/
theorem Issued.offers {collateralTransaction merklePaths : Bytes} {memo : FixedBytes 512}
    {transaction payoutAddress advice : Pointer} {collateral : Nat} {collected : Collected}
    {contributions : List Contribution} {evaluation : Evaluation} {settlement : Pointer}
    {sighash txid : Digest} {last : Globals} {earlier events : List (Event (Call Callback))}
    (hissued : Issued build globals collateralTransaction merklePaths memo collected evaluation
      settlement sighash txid last events)
    (hcollects : Collects build
      (DepositDecoding.operatorEntries payoutAddress advice transaction collateral) collected
      contributions)
    (hcontributed : List.Forall₂ (Contribution.From globals.players earlier)
      (List.range build.numPlayers) contributions)
    (htransaction : .answered (.zcashImportTransaction collateralTransaction) (some transaction) ∈
      earlier)
    (hquiet : sentIn earlier = []) (hret : evaluation.ret = 0)
    (hevaluation : ∃ events last, Exec (evaluateFunctionality build.numPlayers
      collected.depositAmounts.tail) globals events last (some evaluation)) :
    Offers build globals collateralTransaction merklePaths (earlier ++ events) last
      ⟨collateralTransaction, contributions, evaluation, settlement, sighash, txid⟩ := by
  obtain ⟨hcreated, hhashed, hannounced, hstored⟩ := hissued
  rw [hcollects.depositTransactions, hcollects.payoutAddresses, hcollects.advices,
    hcollects.depositAmounts] at hcreated
  rw [hcollects.depositAmounts] at hevaluation
  rw [hcollects.rawDepositTransactions] at hannounced
  constructor
  · rfl
  · exact hcontributed.imp fun _ _ h => h.mono (List.subset_append_left _ _)
  · exact ⟨hret, globals, hevaluation⟩
  · exact ⟨transaction, payoutAddress, advice, collateral, memo,
      List.mem_append_left _ htransaction, List.mem_append_right _ hcreated⟩
  · exact List.mem_append_right _ hhashed
  · intro msg channel hsent
    rw [sentIn_append, hquiet, List.nil_append] at hsent
    exact hannounced msg channel hsent
  · exact hstored

theorem clearContract_offers (context : Pointer)
    (payoutAddress collateralTransaction merklePaths : Bytes) :
    wp tape (fun result last events => result.1 = 0 → ∃ offer,
        Offers build globals collateralTransaction merklePaths events last offer)
      (clearContract build context payoutAddress collateralTransaction merklePaths) globals [] := by
  rw [clearContract, wp_bind, wp_tape_issue]
  intro memo
  rw [wp_bind, wp_tape_issue]
  intro address
  cases address with
  | none => exact fun h => absurd h einval_error
  | some address =>
    simp only [wp_bind, wp_get]
    cases globals.depositWallet with
    | none => exact wp_deref_none.mpr trivial
    | some depositWallet =>
      rw [wp_deref_some, wp_tape_issue]
      intro advice
      cases advice with
      | none => exact fun h => absurd h efault_error
      | some advice =>
        rw [wp_bind, wp_tape_issue]
        intro transaction
        cases transaction with
        | none => exact fun h => absurd h einval_error
        | some transaction =>
          rw [wp_bind, wp_tape_issue]
          intro collateral
          rw [wp_ite]
          refine ⟨fun _ h => absurd h einval_error, fun _ => ?_⟩
          refine wp_tape_bind fun result last collecting hcollecting => ?_
          obtain ⟨rfl, hcollected⟩ := hcollecting.taped (collectDeposits_collects _ _)
          have hcollectingQuiet : sentIn collecting = [] := by
            refine sentIn_eq_nil ?_ hcollecting rfl
            exact collectDeposits_within silent_of_internal (fun _ => rfl) _ _ _
          rw [wp_ite]
          refine ⟨fun hret h => absurd h hret, fun hret => ?_⟩
          obtain ⟨contributions, hcollected, hcontributed⟩ := hcollected (not_not.mp hret)
          have hcollects : Collects build
              (DepositDecoding.operatorEntries address advice transaction collateral) result.2
              contributions := hcollected
          refine wp_tape_from (settle_issues context collateralTransaction merklePaths memo
            result.2) ?_
          intro settled last events hsettled hzero
          obtain ⟨evaluation, settlement, sighash, txid, heval, hevaluation, hissued⟩ :=
            hsettled hzero
          refine ⟨_, hissued.offers hcollects ?_ ?_ ?_ heval hevaluation⟩
          · exact hcontributed.imp fun _ _ h => h.mono (List.subset_append_right _ _)
          · simp
          · rw [sentIn_append, hcollectingQuiet]
            rfl

/-- The objects and buffers are released, and nothing more is sent. -/
theorem Offers.released {collateralTransaction merklePaths : Bytes}
    {events later : List (Event (Call Callback))} {last final : Globals} {offer : Offer}
    (h : Offers build globals collateralTransaction merklePaths events last offer)
    (hquiet : sentIn later = [])
    (hstored : final.unauthorizedSettlement = last.unauthorizedSettlement) :
    Offers build globals collateralTransaction merklePaths (events ++ later) final offer where
  collateral := h.collateral
  contributed := h.contributed.imp fun _ _ hfrom => hfrom.mono (List.subset_append_left _ _)
  evaluated := h.evaluated
  created := by
    obtain ⟨transaction, payoutAddress, advice, collateral, memo, himported, hcreated⟩ := h.created
    exact ⟨transaction, payoutAddress, advice, collateral, memo,
      List.mem_append_left _ himported, List.mem_append_left _ hcreated⟩
  hashed := List.mem_append_left _ h.hashed
  announced msg channel hsent := by
    rw [sentIn_append, hquiet, List.append_nil] at hsent
    exact h.announced msg channel hsent
  stored := hstored.trans h.stored

theorem ecallClearContractImpl_offers (context : Pointer)
    (payoutAddress collateralTransaction merklePaths : Bytes) :
    wp tape (fun ret last events => ret = 0 → ∃ offer,
        Offers build globals collateralTransaction merklePaths events last offer)
      (ecallClearContractImpl build context payoutAddress collateralTransaction merklePaths)
      globals [] := by
  rw [ecallClearContractImpl, wp_bind]
  refine wp_tape_from (clearContract_offers context payoutAddress collateralTransaction
    merklePaths) ?_
  rintro ⟨ret, collected⟩ last events hoffers
  refine wp_tape_bind fun _ objects releasing hreleasing => ?_
  have hobjects : (releaseObjects collected (List.range (build.numPlayers + 1))).Within
      Call.Internal (last = ·) := releaseObjects_within _ _
  obtain rfl := hobjects.kept hreleasing rfl
  refine wp_tape_bind fun _ buffers freeing hfreeing => ?_
  have hbuffers : (freeBuffers collected (List.range build.numPlayers)).Within
      Call.Internal (last = ·) := freeBuffers_within _ _
  obtain rfl := hbuffers.kept hfreeing rfl
  rw [wp_ite]
  constructor
  · intro hret
    simp only [wp_bind, wp_get]
    cases last.unauthorizedSettlement with
    | none => exact fun h => absurd h hret
    | some settlement => exact ⟨trivial, fun _ h => absurd h hret⟩
  · intro hret hzero
    obtain ⟨offer, hoffer⟩ := hoffers (not_not.mp hret)
    have hreleased := hoffer.released
      (sentIn_eq_nil (hobjects.mono silent_of_internal) hreleasing rfl) rfl
    exact ⟨offer, hreleased.released
      (sentIn_eq_nil (hbuffers.mono silent_of_internal) hfreeing rfl) rfl⟩

end ClearContract

section Steps
variable {dep : Deployment} {step : Step (enclave dep)}
open Program (Within)

/-- The call of `ecall_clear_contract` that `entry.c` lets through. -/
def Clears (step : Step (enclave dep)) : Prop :=
  step.before.state = .initialized ∧ ∃ context payoutAddress collateralTransaction merklePaths,
    step.op = Ecall.ecallClearContract context payoutAddress collateralTransaction merklePaths

/-- What the calls of an ECALL say of it: only the one that is let through to clear the contract
sends clear-contract messages, and only the finalization hands out the settlement. -/
def Belongs (op : Ecall) (globals : Globals) {β : Type} : Call Callback β → Prop
  | .auntieMsgSend msg _ => msg.msgType = msgClearContract → globals.state = .initialized ∧
    ∃ context payoutAddress collateralTransaction merklePaths,
      op = .ecallClearContract context payoutAddress collateralTransaction merklePaths
  | .callback output =>
    match output with
    | .ocallFinalize _ _ =>
      globals.state = .clearedContract ∧ ∃ context, op = .ecallFinalize context
    | _ => True
  | _ => True

/-- The state machine of `entry.c`. -/
def nextState (state : State) : Ecall → Int32 → State
  | .ecallConnectToPlayer _, _ => state
  | .ecallInitialize _, ret => if state = .uninitialized ∧ ret = 0 then .initialized else state
  | .ecallClearContract _ _ _ _, ret =>
    if state = .initialized then (if ret ≠ 0 then .aborted else .clearedContract) else state
  | .ecallFinalize _, ret =>
    if state = .clearedContract then (if ret ≠ 0 then .aborted else .finalized) else state
  | .ecallRefund _ _, ret => if state ≠ .finalized ∧ ret = 0 then .refunded else state

/-- How an ECALL moves the state, and that a settlement that stays is not replaced. -/
structure Moved (op : Ecall) (before : Globals) (ret : Int32) (last : Globals) : Prop where
  state : last.state = nextState before.state op ret
  settlement : before.state = .clearedContract → last.state = .clearedContract →
    last.unauthorizedSettlement = before.unauthorizedSettlement

def belonging (op : Ecall) (globals : Globals) : Monitor (Call Callback) Globals Unit where
  safe _ _ c := Belongs op globals c

theorem quiet_moves {α : Type} {allowed : {β : Type} → Call Callback β → Prop} {op : Ecall}
    {before globals : Globals} {keeps : Globals → Prop} {p : Code α}
    {post : α → Globals → Unit → Prop} (h : p.Within allowed keeps)
    (hallowed : ∀ {β : Type} (c : Call Callback β), allowed c → Belongs op before c)
    (hstate : keeps globals) (hpost : ∀ value last, keeps last → post value last ()) :
    wp (belonging op before) post p globals () :=
  h.quiet (fun _ c hc => hallowed c hc) (fun _ _ _ => rfl) hstate hpost

section Ecalls
variable {globals : Globals}

/-- The calls of the setup. -/
def Connecting {β : Type} : Call Callback β → Prop
  | .auntieMsgSend msg _ =>
    msg.msgType ∈ [msgAttestationSynack, msgPlayersQuotesBroadcast, msgSetupComplete]
  | .callback _ => False
  | _ => True

theorem connecting_of_handshake {β : Type} (c : Call Callback β) (h : c.Handshake) :
    Connecting c := by
  cases c with
  | callback | auntieMsgSend => exact absurd h id
  | _ => trivial

theorem ecallConnectToPlayer_connecting {before : Globals} (context : Pointer) :
    (ecallConnectToPlayer dep context).Within Connecting (SetupOnly before) :=
  ecallConnectToPlayer_within connecting_of_handshake trivial (fun _ => trivial) trivial
    (fun _ => trivial) (fun _ _ => trivial) (fun _ _ _ htype => htype) context

theorem ecallConnectToPlayer_moves (context : Pointer) :
    wp (belonging (.ecallConnectToPlayer context) globals)
      (fun ret last _ => Moved (.ecallConnectToPlayer context) globals ret last)
      (ecallConnectToPlayer dep context) globals () := by
  refine quiet_moves (ecallConnectToPlayer_connecting context) ?_ ⟨_, _, _, _, _, rfl⟩ ?_
  · intro β c hc
    cases c with
    | callback => exact absurd hc id
    | auntieMsgSend msg channel =>
      intro htype
      have hc : msg.msgType ∈
          [msgAttestationSynack, msgPlayersQuotesBroadcast, msgSetupComplete] := hc
      rw [htype] at hc
      exact absurd hc (by decide)
    | _ => trivial
  · rintro ret _ ⟨_, _, _, _, _, rfl⟩
    exact ⟨rfl, fun _ _ => rfl⟩

theorem ecallInitialize_moves (context : Pointer) :
    wp (belonging (.ecallInitialize context) globals)
      (fun ret last _ => Moved (.ecallInitialize context) globals ret last)
      (ecallInitialize context) globals () := by
  simp only [ecallInitialize, setState, wp_bind, wp_get, wp_ite, wp_pure, wp_modify]
  refine ⟨fun hstate => ⟨by simp [nextState, hstate], fun _ _ => rfl⟩, fun hstate => ?_⟩
  have hstate := not_not.mp hstate
  refine quiet_moves (ecallInitializeImpl_within context) ?_ ⟨_, rfl⟩ ?_
  · intro β c hc
    cases c with
    | auntieMsgSend => exact absurd hc id
    | callback output =>
      cases output with
      | ocallFinalize => exact absurd hc id
      | _ => trivial
    | _ => trivial
  · rintro ret _ ⟨_, rfl⟩
    have hother : globals.state ≠ .clearedContract := by simp [hstate]
    exact ⟨fun hret => ⟨by simp [nextState, hstate, hret], fun h => absurd h hother⟩,
      fun hret => ⟨by simp [nextState, hret], fun h => absurd h hother⟩⟩

theorem ecallClearContract_moves (context : Pointer)
    (payoutAddress collateralTransaction merklePaths : Bytes) :
    wp (belonging (.ecallClearContract context payoutAddress collateralTransaction merklePaths)
        globals)
      (fun ret last _ => Moved
        (.ecallClearContract context payoutAddress collateralTransaction merklePaths) globals ret
        last)
      (ecallClearContract dep context payoutAddress collateralTransaction merklePaths) globals
      () := by
  simp only [ecallClearContract, setState, wp_bind, wp_get, wp_ite, wp_pure, wp_modify]
  refine ⟨fun hstate => ⟨by simp [nextState, hstate], fun _ _ => rfl⟩, fun hstate => ?_⟩
  have hstate := not_not.mp hstate
  refine quiet_moves (ecallClearContractImpl_clearing context payoutAddress collateralTransaction
    merklePaths) ?_ ⟨_, _, rfl⟩ ?_
  · intro β c hc
    cases c with
    | auntieMsgSend =>
      exact fun _ => ⟨hstate, context, payoutAddress, collateralTransaction, merklePaths, rfl⟩
    | callback output =>
      cases output with
      | ocallFinalize => exact absurd hc id
      | _ => trivial
    | _ => trivial
  · rintro ret _ ⟨_, _, rfl⟩
    exact ⟨by simp [nextState, hstate], fun h => absurd h (by simp [hstate])⟩

theorem ecallFinalize_moves (context : Pointer) :
    wp (belonging (.ecallFinalize context) globals)
      (fun ret last _ => Moved (.ecallFinalize context) globals ret last)
      (ecallFinalize dep context) globals () := by
  simp only [ecallFinalize, setState, wp_bind, wp_get, wp_ite, wp_pure, wp_modify]
  refine ⟨fun hstate => ⟨by simp [nextState, hstate], fun _ _ => rfl⟩, fun hstate => ?_⟩
  have hstate := not_not.mp hstate
  refine quiet_moves (ecallFinalizeImpl_within context) ?_ ⟨_, _, rfl⟩ ?_
  · intro β c hc
    cases c with
    | auntieMsgSend => exact absurd hc (List.not_mem_nil)
    | callback output =>
      cases output with
      | ocallFinalize => exact ⟨hstate, context, rfl⟩
      | _ => trivial
    | _ => trivial
  · rintro ret _ ⟨_, _, rfl⟩
    refine ⟨by simp [nextState, hstate], fun _ h => absurd h ?_⟩
    by_cases hret : ret = 0
    · simp [hret]
    · simp [hret]

theorem belongs_of_internal {op : Ecall} {before : Globals} {β : Type} (c : Call Callback β)
    (h : c.Internal) : Belongs op before c := by
  cases c with
  | callback | auntieMsgSend => exact absurd h id
  | _ => trivial

theorem ecallRefundImpl_belongs {op : Ecall} {before : Globals} {keeps : Globals → Prop}
    (context : Pointer) (blocks : Bytes) :
    (ecallRefundImpl dep context blocks).Within (Belongs op before) keeps :=
  ecallRefundImpl_within belongs_of_internal (fun _ _ => trivial) dep context blocks

theorem ecallRefund_moves (context : Pointer) (blocks : Bytes) :
    wp (belonging (.ecallRefund context blocks) globals)
      (fun ret last _ => Moved (.ecallRefund context blocks) globals ret last)
      (ecallRefund dep context blocks) globals () := by
  simp only [ecallRefund, setState, wp_bind, wp_get, wp_ite, wp_pure, wp_modify]
  refine ⟨fun hstate => ⟨by simp [nextState, hstate], fun _ _ => rfl⟩, fun hstate => ?_⟩
  refine quiet_moves (ecallRefundImpl_belongs context blocks) (fun _ hc => hc) rfl ?_
  rintro ret _ rfl
  exact ⟨fun hret => ⟨by simp [nextState, hstate, hret], (by simp)⟩,
    fun hret => ⟨by simp [nextState, hret], fun _ _ => rfl⟩⟩

theorem handle_moves (op : Ecall) :
    wp (belonging op globals) (fun ret last _ => Moved op globals ret last) (handle dep op)
      globals () := by
  cases op with
  | ecallConnectToPlayer context => exact ecallConnectToPlayer_moves context
  | ecallInitialize context => exact ecallInitialize_moves context
  | ecallClearContract context payoutAddress collateralTransaction merklePaths =>
    exact ecallClearContract_moves context payoutAddress collateralTransaction merklePaths
  | ecallFinalize context => exact ecallFinalize_moves context
  | ecallRefund context blocks => exact ecallRefund_moves context blocks

end Ecalls

theorem step_moved (valid : step.Valid) {ret : Int32} (hret : step.result = some ret) :
    Moved step.op step.before ret step.after := by
  obtain ⟨before, op, events, last, result⟩ := step
  cases hret
  exact Exec.returned valid (handle_moves op)

theorem belongs_of_issued (valid : step.Valid) {β : Type} {c : Call Callback β}
    (hissued : .issued c ∈ step.events) : Belongs step.op step.before c := by
  obtain ⟨_, _, hsafe⟩ := Exec.issued_safe valid (handle_moves step.op) hissued
  exact hsafe

/-- Only the call that is let through sends clear-contract messages. -/
theorem clears_of_sent (valid : step.Valid) {msg : Message} {channel : ChannelRef}
    (hsent : (msg, channel) ∈ sentIn step.events) (htype : msg.msgType = msgClearContract) :
    Clears step :=
  belongs_of_issued valid (mem_sentIn.mp hsent) htype

theorem clears_of_nextState {state : State} {op : Ecall} {ret : Int32}
    (h : nextState state op ret = .clearedContract) : state = .clearedContract ∨
      ret = 0 ∧ state = .initialized ∧
        ∃ context payoutAddress collateralTransaction merklePaths,
          op = .ecallClearContract context payoutAddress collateralTransaction merklePaths := by
  by_cases hret : ret = 0
  all_goals cases op
  all_goals cases state
  all_goals simp_all [nextState]

/-- Before the contract is cleared. -/
def Early (state : State) : Prop := state = .uninitialized ∨ state = .initialized

theorem Early.of_next {state : State} {op : Ecall} {ret : Int32}
    (h : Early (nextState state op ret)) : Early state ∧ ¬ (state = .initialized ∧
      ∃ context payoutAddress collateralTransaction merklePaths,
        op = .ecallClearContract context payoutAddress collateralTransaction merklePaths) := by
  by_cases hret : ret = 0
  all_goals cases op
  all_goals cases state
  all_goals simp_all [Early, nextState]

/-- The call that cleared the contract, and what it offered. -/
structure Cleared (step : Step (enclave dep)) (offer : Offer) : Prop where
  clears : Clears step
  offers : ∃ context payoutAddress merklePaths,
    step.op = Ecall.ecallClearContract context payoutAddress offer.collateralTransaction
      merklePaths ∧
    Offers dep.build step.before offer.collateralTransaction merklePaths step.events step.after
      offer

theorem cleared_of_returned (valid : step.Valid) (hclears : Clears step)
    (hret : step.result = some (0 : Int32)) : ∃ offer, Cleared step offer := by
  obtain ⟨before, op, events, last, result⟩ := step
  obtain ⟨hstate, context, payoutAddress, collateralTransaction, merklePaths, hop⟩ := id hclears
  cases hop
  cases hret
  have hspec : wp tape (fun ret last events => ret = 0 → ∃ offer,
      Offers dep.build before collateralTransaction merklePaths events last offer)
      (ecallClearContract dep context payoutAddress collateralTransaction merklePaths) before
      [] := by
    simp only [ecallClearContract, setState, wp_bind, wp_get, wp_ite, wp_pure, wp_modify]
    refine ⟨fun h => absurd hstate h, fun _ => ?_⟩
    refine wp_mono ?_ (ecallClearContractImpl_offers context payoutAddress collateralTransaction
      merklePaths)
    intro ret last events hoffers hzero
    obtain ⟨offer, hoffer⟩ := hoffers hzero
    exact ⟨offer, { hoffer with stored := hoffer.stored }⟩
  obtain ⟨offer, hoffer⟩ := Exec.taped valid hspec rfl
  obtain rfl := hoffer.collateral
  exact ⟨offer, hclears, context, payoutAddress, merklePaths, rfl, hoffer⟩

end Steps

section Release
variable {dep : Deployment} {globals : Globals}
open Program (Within)

/-- The settlement that is handed out is the authorized form of the one that was kept. -/
def HandsOut (globals : Globals) (events : List (Event (Call Callback))) (settlement : Bytes) :
    Prop :=
  ∃ (unauthorized authorized : Pointer) (signatures : List Pointer) (length : Nat)
    (raw : FixedBytes length), globals.unauthorizedSettlement = some unauthorized ∧
    .answered (.zcashAuthorizeTransaction unauthorized signatures) (some authorized) ∈ events ∧
    .answered (.zcashExportTransactionImpl authorized length) raw ∈ events ∧ raw.val = settlement

/-- The tape, and what it has to hold when the settlement is handed out. -/
def handing (globals : Globals) : Monitor (Call Callback) Globals (List (Event (Call Callback))) :=
  { (tape : Monitor (Call Callback) Globals _) with
    safe _ events c :=
      match c with
      | .callback (.ocallFinalize _ settlement) => HandsOut globals events settlement
      | _ => True }

/-- The calls that hand nothing out. -/
def Withholds {β : Type} : Call Callback β → Prop
  | .callback (.ocallFinalize _ _) => False
  | _ => True

theorem withholds_of_internal {β : Type} (c : Call Callback β) (h : c.Internal) : Withholds c := by
  cases c with
  | callback => exact absurd h id
  | _ => trivial

theorem handing_quiet {α : Type} {keeps : Globals → Prop} {p : Code α} {last : Globals}
    {post : α → Globals → List (Event (Call Callback)) → Prop}
    {events : List (Event (Call Callback))} (h : p.Within Withholds keeps) (hstate : keeps last)
    (hpost : ∀ value last events, keeps last → post value last events) :
    wp (handing globals) post p last events := by
  have hsafe : ∀ {β : Type} (current : Globals) (m : List (Event (Call Callback)))
      (c : Call Callback β), Withholds c → True → (handing globals).safe current m c := by
    intro β current m c hc _
    cases c with
    | callback output =>
      cases output with
      | ocallFinalize => exact absurd hc id
      | _ => trivial
    | _ => trivial
  exact h.wp hsafe (fun _ _ _ _ h => h) hstate trivial fun value last events hlast _ =>
    hpost value last events hlast

theorem authorizeSettlement_hands (context : Pointer) (signatures : List Pointer)
    {events : List (Event (Call Callback))} :
    wp (handing globals) (fun _ _ _ => True) (authorizeSettlement context signatures) globals
      events := by
  simp only [authorizeSettlement, wp_bind, wp_get]
  cases hsettlement : globals.unauthorizedSettlement with
  | none => exact wp_deref_none.mpr trivial
  | some settlement =>
    rw [wp_deref_some, wp_issue]
    refine ⟨trivial, fun authorized => ?_⟩
    rw [wp_modify]
    cases authorized with
    | none => trivial
    | some authorized =>
      simp only [zcashExportTransaction, zcashExport, wp_bind, wp_issue]
      refine ⟨trivial, fun length => ⟨trivial, fun address => ?_⟩⟩
      cases address with
      | none => trivial
      | some address =>
        simp only [wp_bind, wp_issue, wp_pure]
        refine ⟨trivial, fun raw => ⟨?_, fun _ => trivial⟩⟩
        refine ⟨settlement, authorized, signatures, length, raw, hsettlement, ?_, ?_, rfl⟩
        · simp [handing, tape]
        · simp [handing, tape]

theorem ecallFinalizeImpl_hands (build : Build) (context : Pointer) :
    wp (handing globals) (fun _ _ _ => True) (ecallFinalizeImpl build context) globals [] := by
  rw [ecallFinalizeImpl, wp_bind]
  refine handing_quiet (collectSignatures_within withholds_of_internal (fun _ => trivial) _) rfl ?_
  rintro result _ events rfl
  rw [wp_ite]
  constructor
  · intro _
    rw [wp_bind]
    exact handing_quiet ((releaseSignatures_within _).mono withholds_of_internal) rfl
      fun _ _ _ _ => trivial
  · intro _
    simp only [wp_bind, wp_get]
    cases globals.operatorSignature with
    | none => exact wp_deref_none.mpr trivial
    | some operatorSignature =>
      rw [wp_deref_some]
      refine wp_mono ?_ (authorizeSettlement_hands context _)
      intro authorized last events _
      have hrelease : (releaseSignatures (operatorSignature :: result.2)).Within Call.Internal
          fun _ => True := releaseSignatures_within _
      refine handing_quiet (hrelease.mono withholds_of_internal) trivial ?_
      intro _ last events _
      split
      · exact ⟨trivial, fun _ => trivial⟩
      · trivial

/-- Whatever a step hands out it has authorized and exported before. -/
theorem handed_out {step : Step (enclave dep)} (valid : step.Valid) {context : Pointer}
    {settlement : Bytes} {mid rest : List (Event (Call Callback))}
    (hevents : step.events = mid ++ .issued (.callback (.ocallFinalize context settlement)) :: rest) :
    step.before.state = .clearedContract ∧ HandsOut step.before mid settlement := by
  have hissued : .issued (.callback (.ocallFinalize context settlement)) ∈ step.events := by
    rw [hevents]
    exact List.mem_append_right _ List.mem_cons_self
  obtain ⟨hstate, context', hop⟩ := belongs_of_issued valid hissued
  obtain ⟨before, op, events, last, result⟩ := step
  cases hop
  have hspec : wp (handing before) (fun _ _ _ => True) (ecallFinalize dep context') before [] := by
    simp only [ecallFinalize, setState, wp_bind, wp_get, wp_ite, wp_pure, wp_modify]
    exact ⟨fun _ => trivial, fun _ => ecallFinalizeImpl_hands dep.build context'⟩
  have haccepts := Exec.accepts valid hspec
  have hevents : events = mid ++ _ := hevents
  rw [hevents] at haccepts
  have hfold : mid.foldl (handing before).observe [] = mid := foldl_tape (σ := Globals) [] mid
  obtain ⟨_, hhands⟩ := haccepts.issued
  rw [hfold] at hhands
  exact ⟨hstate, hhands⟩

end Release

section Runs
variable {dep : Deployment}

/-- At most one call is let through, and the settlement kept is the one it offered. -/
structure Inv (steps : List (Step (enclave dep))) (globals : Globals) : Prop where
  early : Early globals.state → ∀ step ∈ steps, ¬ Clears step
  cleared : globals.state = .clearedContract → ∃ clear ∈ steps, ∃ offer, Cleared clear offer ∧
    globals.unauthorizedSettlement = some offer.settlement

theorem step_inv {steps : List (Step (enclave dep))} {step : Step (enclave dep)}
    (h : Inv steps step.before) (valid : step.Valid) (finished : step.result.isSome) :
    Inv (steps ++ [step]) step.after := by
  obtain ⟨ret, hret⟩ := Option.isSome_iff_exists.mp finished
  have hmoved := step_moved valid hret
  constructor
  · intro hearly other hother hclears
    rw [hmoved.state] at hearly
    obtain ⟨hbefore, hnot⟩ := hearly.of_next
    rcases List.mem_append.mp hother with hother | hother
    · exact h.early hbefore other hother hclears
    · rw [List.mem_singleton.mp hother] at hclears
      exact hnot hclears
  · intro hcleared
    have hnext := hmoved.state ▸ hcleared
    rcases clears_of_nextState hnext with hbefore | ⟨hzero, hclears⟩
    · obtain ⟨clear, hclear, offer, hoffer, hstored⟩ := h.cleared hbefore
      refine ⟨clear, List.mem_append_left _ hclear, offer, hoffer, ?_⟩
      rw [hmoved.settlement hbefore hcleared, hstored]
    · rw [hzero] at hret
      obtain ⟨offer, hoffer⟩ := cleared_of_returned valid hclears hret
      obtain ⟨_, _, _, _, hoffers⟩ := hoffer.offers
      exact ⟨step, by simp, offer, hoffer, hoffers.stored⟩

theorem inv_initial : Inv ([] : List (Step (enclave dep))) (initial dep) where
  early _ step hstep := absurd hstep List.not_mem_nil
  cleared h := absurd h (by simp [initial])

theorem trace_inv {steps : List (Step (enclave dep))} {last : Globals}
    (trace : Trace (enclave dep) (initial dep) steps last) :
    Throughout (fun earlier step => Inv earlier step.before ∧ step.Valid ∧ True) steps :=
  trace.throughout (fun _ _ _ _ => trivial) inv_initial
    fun _ _ hinv valid finished _ => step_inv hinv valid finished

/-- In one trace at most one call is let through. -/
theorem clears_unique {steps : List (Step (enclave dep))} {last : Globals}
    (trace : Trace (enclave dep) (initial dep) steps last) {first second : Step (enclave dep)}
    (hfirst : first ∈ steps) (hsecond : second ∈ steps) (h : Clears first) (h' : Clears second) :
    first = second := by
  obtain ⟨earlier, later, rfl⟩ := List.append_of_mem hfirst
  obtain ⟨hinv, -, -⟩ := trace_inv trace earlier first later rfl
  have hnone := hinv.early (.inr h.1)
  rcases List.mem_append.mp hsecond with hearlier | hlater
  · exact absurd h' (hnone second hearlier)
  · rcases List.mem_cons.mp hlater with rfl | hlater
    · rfl
    · obtain ⟨between, rest, rfl⟩ := List.append_of_mem hlater
      obtain ⟨hinv', -, -⟩ := trace_inv trace (earlier ++ first :: between) second rest (by simp)
      exact absurd h (hinv'.early (.inr h'.1) first (by simp))

/-- What is handed out in a run is the settlement that was offered before. -/
theorem handed_out_offer {steps : List (Step (enclave dep))} {last : Globals}
    (trace : Trace (enclave dep) (initial dep) steps last)
    {earlier later : List (Step (enclave dep))} {step : Step (enclave dep)}
    (hsplit : steps = earlier ++ step :: later) {context : Pointer} {settlement : Bytes}
    {mid rest : List (Event (Call Callback))}
    (hevents : step.events = mid ++ .issued (.callback (.ocallFinalize context settlement)) :: rest) :
    ∃ clear ∈ earlier, ∃ offer, Cleared clear offer ∧
      ∃ (authorized : Pointer) (signatures : List Pointer) (length : Nat) (raw : FixedBytes length),
        .answered (.zcashAuthorizeTransaction offer.settlement signatures) (some authorized) ∈ mid ∧
        .answered (.zcashExportTransactionImpl authorized length) raw ∈ mid ∧
        raw.val = settlement := by
  obtain ⟨hinv, valid, -⟩ := trace_inv trace earlier step later hsplit
  obtain ⟨hstate, unauthorized, authorized, signatures, length, raw, hkept, hauthorized, hexported,
    hraw⟩ := handed_out valid hevents
  obtain ⟨clear, hclear, offer, hoffer, hstored⟩ := hinv.cleared hstate
  obtain rfl := Option.some.inj (hkept.symm.trans hstored)
  exact ⟨clear, hclear, offer, hoffer, authorized, signatures, length, raw, hauthorized, hexported,
    hraw⟩

/-- Every clear-contract message of a run is for the one settlement that is offered in it. -/
theorem sent_offer {steps : List (Step (enclave dep))} {last : Globals}
    (trace : Trace (enclave dep) (initial dep) steps last) {clear step : Step (enclave dep)}
    (hclear : clear ∈ steps) (hstep : step ∈ steps) {offer : Offer} (hcleared : Cleared clear offer)
    {msg : Message} {channel : ChannelRef} (hsent : (msg, channel) ∈ sentIn step.events)
    (htype : msg.msgType = msgClearContract) :
    ClearContractDecoding.Builds dep.build.numPlayers clear.before offer.sighash offer.txid
      offer.outputs offer.depositTransactions
      (.auntieMsgSend msg channel : Call Callback Int32) := by
  obtain ⟨earlier, later, hsplit⟩ := List.append_of_mem hstep
  obtain ⟨-, valid, -⟩ := trace_inv trace earlier step later hsplit
  have hsame : step = clear :=
    clears_unique trace hstep hclear (clears_of_sent valid hsent htype) hcleared.clears
  obtain ⟨_, _, _, _, hoffers⟩ := hcleared.offers
  rw [hsame] at hsent
  exact hoffers.announced msg channel hsent

end Runs

end Auntie.Guarantees.SettlementOffer
