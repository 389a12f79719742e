import Auntie.Source.Player.Entry

/-!
# Setup before the contract, at the player

No state of `entry.c` says whether the setup is complete: the ECALLs of the contract read
`operator->channel` as they find it. Where the host connects before it deposits, `operator`
is never `NULL` there, and the channel is one on which the setup has been completed.
-/

namespace Auntie.Guarantees.PlayerSetup
open Auntie.Source Auntie.Source.Player Auntie.Interaction

/-- The quotes broadcast, the acknowledgement and the notification that the contract is live,
one after the other. -/
def Exchanged (channel : ChannelRef) (events : List (Event (Call Callback))) : Prop :=
  ∃ quotes complete : ReceivedMessage, quotes.msgType = msgPlayersQuotesBroadcast ∧
    complete.msgType = msgSetupComplete ∧
    [.answered (.auntieMsgReceive channel) (some quotes),
      .answered (.auntieMsgSend (.ofPayload msgPlayersQuotesOk []) channel) 0,
      .answered (.auntieMsgReceive channel) (some complete)].Sublist events

section Setup
variable {globals : Globals}

theorem printPlayersQuotes_spec (numPlayers playerId : Nat) (msg : ReceivedMessage)
    (indices : List Nat) {kept events : List (Event (Call Callback))} (h : kept.Sublist events) :
    wp tape (fun error last events => last = globals ∧ error ≠ some 0 ∧ kept.Sublist events)
      (printPlayersQuotes numPlayers playerId msg indices) globals events := by
  induction indices generalizing events with
  | nil => exact ⟨rfl, (by simp), h⟩
  | cons i rest ih =>
    simp only [printPlayersQuotes, wp_ite, wp_bind, wp_tape_issue, wp_pure]
    refine ⟨fun _ => ih h, fun _ ret => ⟨fun _ _ => ⟨trivial, by decide, ?_⟩, fun _ => ih ?_⟩⟩
    · exact (h.trans (List.sublist_append_left _ _)).trans (List.sublist_append_left _ _)
    · exact h.trans (List.sublist_append_left _ _)

theorem presentQuotes_exchanges (numPlayers : Nat) (operator : Operator) (playerId : Nat)
    (events : List (Event (Call Callback))) :
    wp tape (fun ret last events => last = globals ∧ (ret = 0 → Exchanged operator.channel events))
      (presentQuotes numPlayers operator playerId) globals events := by
  simp only [presentQuotes, wp_bind, wp_tape_issue]
  intro msg1
  cases msg1 with
  | none => exact ⟨rfl, fun h => absurd h eio_error⟩
  | some quotes =>
    simp only [wp_ite, wp_bind, wp_tape_issue, wp_pure]
    refine ⟨fun _ _ => ⟨trivial, fun h => absurd h eio_error⟩, fun hquotes => ?_⟩
    let received : List (Event (Call Callback)) :=
      [.answered (.auntieMsgReceive operator.channel) (some quotes)]
    have hreceived : received.Sublist (events ++
        [.issued (.auntieMsgReceive operator.channel),
          .answered (.auntieMsgReceive operator.channel) (some quotes)]) := by
      simp [received]
    refine wp_mono ?_ (printPlayersQuotes_spec numPlayers playerId quotes _ hreceived)
    rintro error _ printed ⟨rfl, herror, hprinted⟩
    cases error with
    | some error => exact ⟨rfl, fun h => absurd (congrArg some h) herror⟩
    | none =>
      simp only [wp_bind, wp_tape_issue, wp_ite, wp_pure]
      intro _ ret
      refine ⟨fun _ => ⟨trivial, fun h => absurd h eio_error⟩, fun _ msg2 => ?_⟩
      cases msg2 with
      | none => exact ⟨rfl, fun h => absurd h enomem_error⟩
      | some msg2 =>
        simp only [wp_bind, wp_tape_issue, wp_ite, wp_pure]
        intro sent _
        refine ⟨fun hsent => ⟨trivial, fun h => absurd h hsent⟩, fun hsent msg3 => ?_⟩
        cases msg3 with
        | none => exact ⟨rfl, fun h => absurd h eio_error⟩
        | some complete =>
          simp only [wp_bind, wp_tape_issue, wp_ite, wp_pure]
          refine ⟨fun _ _ => ⟨trivial, fun h => absurd h eio_error⟩, fun hcomplete _ => ?_⟩
          refine ⟨trivial, fun _ => ⟨quotes, complete, not_not.mp hquotes, not_not.mp hcomplete, ?_⟩⟩
          rw [not_not.mp hsent]
          simp only [List.append_assoc]
          refine hprinted.append ?_
          repeat' first
            | exact .slnil
            | apply List.Sublist.cons_cons
            | apply List.Sublist.cons

/-- One call: a channel is kept exactly if the setup has been completed on it. -/
theorem ecallConnectToOperatorImpl_spec (numPlayers : Nat) (tcrypto : Tcrypto) (context : Pointer)
    (playerId : Nat) (hoperator : globals.operator = none) :
    wp tape (fun ret last events =>
        (ret = 0 → ∃ operator, last.operator = some operator ∧ Exchanged operator.channel events) ∧
        (ret ≠ 0 → last.operator = none))
      (ecallConnectToOperatorImpl numPlayers tcrypto context playerId) globals [] := by
  simp only [ecallConnectToOperatorImpl, wp_bind, wp_get, wp_ite, wp_pure, wp_tape_issue]
  refine ⟨fun h => by simp [hoperator] at h, fun _ answer => ?_⟩
  refine ⟨fun hret => ⟨fun h => absurd h hret, fun _ => hoperator⟩, fun _ => ?_⟩
  have hkept : ∀ _ _ : List (Event (Call Callback)), True → True := fun _ _ => id
  have hattest : (mutualAttestation tcrypto context answer.2 playerId).Within (fun _ => True)
      (SetupOnly globals) :=
    mutualAttestation_within (fun _ _ => trivial) (fun _ stash h => h.stash stash)
      (fun _ => trivial) (fun _ _ _ _ => trivial) trivial (fun _ => trivial) _ _ _
  refine hattest.tape hkept ⟨_, _, rfl⟩ trivial ?_
  intro operator last events _ _
  rw [wp_modify]
  cases operator with
  | none => exact ⟨fun h => absurd h eio_error, fun _ => rfl⟩
  | some operator =>
    rw [wp_bind]
    refine wp_mono ?_ (presentQuotes_exchanges numPlayers operator playerId _)
    rintro ret _ events ⟨rfl, hexchanged⟩
    simp only [wp_ite, wp_bind, wp_tape_issue, wp_modify, wp_pure]
    refine ⟨fun hret _ _ _ => ⟨fun h => absurd h hret, fun _ => trivial⟩, fun hret => ?_⟩
    exact ⟨fun _ => ⟨operator, rfl, hexchanged (not_not.mp hret)⟩, fun h => absurd rfl h⟩

end Setup

section Contract

/-- A call that is neither lost on `NULL` nor made on another channel than the operator's. -/
def SafeOn (operator : Option Operator) {β : Type} : Call Callback β → Prop
  | .fault => False
  | .auntieMsgReceive channel => operator.map Operator.channel = some channel
  | .auntieMsgSend _ channel => operator.map Operator.channel = some channel
  | _ => True

def guard (operator : Option Operator) : Monitor (Call Callback) Globals Unit where
  safe _ _ c := SafeOn operator c

variable {globals : Globals} {operator : Operator}

theorem guard_of_within {α : Type} {keeps : Globals → Prop} {p : Code α}
    {post : α → Globals → Unit → Prop}
    (h : p.Within (SafeOn (some operator)) keeps) (hstate : keeps globals)
    (hpost : ∀ value last, keeps last → post value last ()) :
    wp (guard (some operator)) post p globals () :=
  h.quiet (fun _ _ hc => hc) (fun _ _ _ => rfl) hstate hpost

theorem sendDeposit_spec (hoperator : globals.operator = some operator) {advice : Pointer}
    (hadvice : globals.depositAdvice = some advice) (depositAmount : Nat)
    (depositTransaction input : Bytes) (payoutAddress rawAdvice : Buffer) :
    wp (guard (some operator)) (fun ret last _ => ret = 0 → last.depositAdvice.isSome)
      (sendDeposit depositAmount depositTransaction input payoutAddress rawAdvice advice)
      globals () := by
  simp only [sendDeposit, releaseAdvice, wp_bind, wp_issue]
  refine ⟨trivial, fun msg => ?_⟩
  cases msg with
  | none => exact ⟨trivial, fun _ => ⟨trivial, fun _ => ⟨trivial, fun _ h => absurd h enomem_error⟩⟩⟩
  | some msg =>
    simp only [wp_bind, wp_get, hoperator, wp_deref_some, wp_issue, wp_ite, wp_modify, wp_pure]
    refine ⟨rfl, fun ret => ⟨trivial, fun _ => ⟨trivial, fun _ => ⟨trivial, fun _ => ?_⟩⟩⟩⟩
    exact ⟨fun hret => ⟨trivial, fun _ h => absurd h hret⟩, fun _ _ => by rw [hadvice]; rfl⟩

theorem ecallDepositAndInputImpl_spec {depositWallet payoutWallet : Wallet}
    (hdeposit : globals.depositWallet = some depositWallet)
    (hpayout : globals.payoutWallet = some payoutWallet)
    (hoperator : globals.operator = some operator) (build : Build)
    (depositTransaction input : Bytes) :
    wp (guard (some operator)) (fun ret last _ => ret = 0 → last.depositAdvice.isSome)
      (ecallDepositAndInputImpl build depositTransaction input) globals () := by
  simp only [ecallDepositAndInputImpl, wp_bind, wp_issue]
  refine ⟨trivial, fun tx => ?_⟩
  cases tx with
  | none => exact fun h => absurd h einval_error
  | some tx =>
    simp only [wp_bind, wp_get, hdeposit, wp_deref_some, wp_issue, wp_ite, wp_pure, hpayout,
      zcashExportAddress, zcashExport]
    refine ⟨trivial, fun depositAmount => ⟨trivial, fun _ => ⟨fun _ h => absurd h einval_error,
      fun _ => ⟨trivial, fun address => ?_⟩⟩⟩⟩
    cases address with
    | none => exact fun h => absurd h enomem_error
    | some address =>
      simp only [wp_bind, wp_issue, wp_pure, wp_modify]
      refine ⟨trivial, fun payoutAddress => ⟨trivial, fun depositAdvice => ?_⟩⟩
      cases depositAdvice with
      | none => exact ⟨trivial, fun _ h => absurd h efault_error⟩
      | some advice =>
        simp only [zcashExportAdvice, zcashExport, wp_bind, wp_issue]
        refine ⟨trivial, fun address => ?_⟩
        cases address with
        | none => exact ⟨trivial, fun _ => ⟨trivial, fun _ h => absurd h enomem_error⟩⟩
        | some address =>
          simp only [wp_bind, wp_issue, wp_pure]
          refine ⟨trivial, fun rawAdvice => ?_⟩
          refine sendDeposit_spec ?_ ?_ _ _ _ _ _
          · exact hoperator
          · rfl

theorem ecallGetDepositsImpl_spec (hoperator : globals.operator = some operator) (build : Build)
    (context : Pointer) :
    wp (guard (some operator)) (fun _ _ _ => True) (ecallGetDepositsImpl build context)
      globals () := by
  simp only [ecallGetDepositsImpl, wp_bind, wp_get, hoperator, wp_deref_some, wp_issue]
  refine ⟨rfl, fun msg => ?_⟩
  cases msg with
  | none => trivial
  | some msg =>
    simp only [wp_ite, wp_bind, wp_issue, wp_pure, wp_modify]
    refine ⟨fun _ => ⟨trivial, fun _ => trivial⟩, fun _ => ⟨trivial, fun address => ?_⟩⟩
    cases address with
    | none => exact ⟨trivial, fun _ => trivial⟩
    | some address =>
      simp only [wp_bind, wp_modify]
      have houtputs (output : Buffer) : (outputAllDeposits build context msg output).Within
          (SafeOn (some operator)) fun _ => True :=
        outputAllDeposits_within (fun _ _ => trivial) (fun _ => trivial) (fun _ _ => trivial) _ _ _ _
      exact guard_of_within (houtputs _) trivial fun _ _ _ => trivial

theorem ecallConfirmDepositsImpl_spec {depositWallet : Wallet} {advice : Pointer}
    (hdeposit : globals.depositWallet = some depositWallet)
    (hadvice : globals.depositAdvice = some advice)
    (hoperator : globals.operator = some operator) :
    wp (guard (some operator)) (fun _ _ _ => True) ecallConfirmDepositsImpl globals () := by
  simp only [ecallConfirmDepositsImpl, releaseAdvice, zcashExportSignature, zcashExport, wp_bind,
    wp_get, hdeposit, hadvice, wp_deref_some, wp_issue, wp_modify]
  refine ⟨trivial, fun signature => ⟨trivial, fun _ => ?_⟩⟩
  cases signature with
  | none => trivial
  | some signature =>
    simp only [wp_bind, wp_issue]
    refine ⟨trivial, fun address => ?_⟩
    cases address with
    | none => exact ⟨trivial, fun _ => trivial⟩
    | some address =>
      simp only [wp_bind, wp_issue, wp_pure]
      refine ⟨trivial, fun raw => ⟨trivial, fun _ => ⟨trivial, fun msg => ?_⟩⟩⟩
      cases msg with
      | none => exact ⟨trivial, fun _ => trivial⟩
      | some msg =>
        simp only [wp_bind, wp_get, hoperator, wp_deref_some, wp_issue, wp_pure]
        exact ⟨rfl, fun _ => ⟨trivial, fun _ => ⟨trivial, fun _ => trivial⟩⟩⟩

end Contract

section Ecalls
variable {dep : Deployment} {globals : Globals}

/-- What the states of the contract say about the globals. -/
structure Prepared (globals : Globals) : Prop where
  wallets : globals.state = .initialized ∨ globals.state = .deposited ∨
    globals.state = .gotDeposits → globals.depositWallet.isSome ∧ globals.payoutWallet.isSome
  deposited : globals.state = .deposited ∨ globals.state = .gotDeposits →
    globals.operator.isSome ∧ globals.depositAdvice.isSome

/-- A state outside the contract. -/
theorem Prepared.of_other {state : State} (hinitialized : state ≠ .initialized)
    (hdeposited : state ≠ .deposited) (hgotDeposits : state ≠ .gotDeposits) :
    Prepared { globals with state := state } :=
  ⟨fun h => by simp_all, fun h => by simp_all⟩

/-- Both wallets exist after a success, and the deposit wallet does not after a failure. -/
def WalletsSet (ret : Int32) (last : Globals) : Prop :=
  (ret = 0 → last.depositWallet.isSome ∧ last.payoutWallet.isSome) ∧
    (ret ≠ 0 → last.depositWallet = none)

theorem WalletsSet.dropped {ret : Int32} {last : Globals} (hret : ret ≠ 0)
    (h : last.depositWallet = none) : WalletsSet ret last :=
  ⟨fun hzero => absurd hzero hret, fun _ => h⟩

theorem ecallInitializeImpl_spec (context : Pointer) :
    wp ({} : Monitor (Call Callback) Globals Unit) (fun ret last _ => WalletsSet ret last)
      (ecallInitializeImpl context) globals () := by
  simp only [ecallInitializeImpl, wp_bind]
  refine zcashCreateWallet_unmonitored fun depositWallet => ?_
  rw [wp_modify]
  cases depositWallet with
  | none => exact .dropped enomem_error rfl
  | some depositWallet =>
    rw [wp_bind]
    refine zcashCreateWallet_unmonitored fun payoutWallet => ?_
    rw [wp_bind, wp_modify]
    cases payoutWallet with
    | none =>
      rw [wp_bind]
      exact zcashReleaseWallet_unmonitored (.dropped enomem_error rfl)
    | some payoutWallet =>
      have hdrop {current : Globals} {ret : Int32} (hret : ret ≠ 0) :
          wp ({} : Monitor (Call Callback) Globals Unit) (fun _ last _ => WalletsSet ret last)
            (dropWallets depositWallet payoutWallet) current () := by
        simp only [dropWallets, wp_bind]
        refine zcashReleaseWallet_unmonitored ?_
        exact zcashReleaseWallet_unmonitored (.dropped hret rfl)
      simp only [zcashExportAddress, zcashExport, wp_bind, wp_issue]
      refine ⟨trivial, fun address => ?_⟩
      cases address with
      | none => exact hdrop enomem_error
      | some address =>
        simp only [wp_bind, wp_issue, wp_ite, wp_pure]
        exact ⟨trivial, fun _ => ⟨trivial, fun ret => ⟨trivial, fun _ =>
          ⟨fun hret => hdrop hret, fun hret => ⟨fun _ => ⟨rfl, rfl⟩, fun hne => absurd hne hret⟩⟩⟩⟩⟩

theorem ecallInitialize_prepared (h : Prepared globals) (context : Pointer) :
    wp ({} : Monitor (Call Callback) Globals Unit)
      (fun _ last _ => Prepared last ∧ last.operator = globals.operator)
      (ecallInitialize context) globals () := by
  simp only [ecallInitialize, setState, wp_bind, wp_get, wp_ite, wp_pure, wp_modify]
  refine ⟨fun _ => ⟨h, trivial⟩, fun hstate => ?_⟩
  refine wp_mono ?_ ((ecallInitializeImpl_within context).wp_kept ⟨_, _, rfl⟩
    (ecallInitializeImpl_spec context))
  rintro ret _ _ ⟨⟨depositWallet, payoutWallet, rfl⟩, hwallets⟩
  refine ⟨fun hret => ⟨⟨fun _ => hwallets.1 hret, by simp⟩, rfl⟩, fun _ => ⟨?_, rfl⟩⟩
  exact ⟨by simp [not_not.mp hstate], by simp [not_not.mp hstate]⟩

theorem ecallDepositAndInput_prepared (h : Prepared globals)
    (hconnected : globals.state = .initialized → globals.operator.isSome)
    (depositTransaction input : Bytes) :
    wp (guard globals.operator) (fun _ last _ => Prepared last ∧ last.operator = globals.operator)
      (ecallDepositAndInput dep depositTransaction input) globals () := by
  simp only [ecallDepositAndInput, setState, wp_bind, wp_get, wp_ite, wp_pure, wp_modify]
  refine ⟨fun _ => ⟨h, trivial⟩, fun hstate => ?_⟩
  obtain ⟨hdeposit, hpayout⟩ := h.wallets (.inl (not_not.mp hstate))
  obtain ⟨depositWallet, hdeposit⟩ := Option.isSome_iff_exists.mp hdeposit
  obtain ⟨payoutWallet, hpayout⟩ := Option.isSome_iff_exists.mp hpayout
  obtain ⟨operator, hoperator⟩ := Option.isSome_iff_exists.mp (hconnected (not_not.mp hstate))
  rw [hoperator]
  refine wp_mono ?_ ((ecallDepositAndInputImpl_within dep.build depositTransaction input).wp_kept
    ⟨_, rfl⟩ (ecallDepositAndInputImpl_spec hdeposit hpayout hoperator _ _ _))
  rintro ret _ _ ⟨⟨depositAdvice, rfl⟩, hadvice⟩
  refine ⟨⟨fun _ => by simp [hdeposit, hpayout], fun hdeposited => ?_⟩, hoperator⟩
  by_cases hret : ret = 0
  · exact ⟨by simp [hoperator], hadvice hret⟩
  · simp [hret] at hdeposited

theorem ecallGetDeposits_prepared (h : Prepared globals) (context : Pointer) :
    wp (guard globals.operator) (fun _ last _ => Prepared last ∧ last.operator = globals.operator)
      (ecallGetDeposits dep context) globals () := by
  simp only [ecallGetDeposits, setState, wp_bind, wp_get, wp_ite, wp_pure, wp_modify]
  refine ⟨fun _ => ⟨h, trivial⟩, fun hstate => ?_⟩
  obtain ⟨hdeposit, hpayout⟩ := h.wallets (.inr (.inl (not_not.mp hstate)))
  obtain ⟨hsome, hadvice⟩ := h.deposited (.inl (not_not.mp hstate))
  obtain ⟨operator, hoperator⟩ := Option.isSome_iff_exists.mp hsome
  rw [hoperator]
  refine wp_mono ?_ ((ecallGetDepositsImpl_permitted dep.build context).wp_kept
    ⟨_, _, _, _, rfl⟩ (ecallGetDepositsImpl_spec hoperator _ _))
  rintro ret _ _ ⟨⟨_, _, _, _, rfl⟩, _⟩
  exact ⟨⟨fun _ => ⟨hdeposit, hpayout⟩, fun _ => ⟨by simp [hoperator], hadvice⟩⟩, hoperator⟩

theorem ecallConfirmDeposits_prepared (h : Prepared globals) :
    wp (guard globals.operator) (fun _ last _ => Prepared last ∧ last.operator = globals.operator)
      ecallConfirmDeposits globals () := by
  simp only [ecallConfirmDeposits, setState, wp_bind, wp_get, wp_ite, wp_pure, wp_modify]
  refine ⟨fun _ => ⟨h, trivial⟩, fun hstate => ?_⟩
  obtain ⟨hdeposit, _⟩ := h.wallets (.inr (.inr (not_not.mp hstate)))
  obtain ⟨hsome, hadvice⟩ := h.deposited (.inr (not_not.mp hstate))
  obtain ⟨operator, hoperator⟩ := Option.isSome_iff_exists.mp hsome
  rw [hoperator]
  obtain ⟨depositWallet, hdeposit⟩ := Option.isSome_iff_exists.mp hdeposit
  obtain ⟨advice, hadvice⟩ := Option.isSome_iff_exists.mp hadvice
  refine wp_mono ?_ (ecallConfirmDepositsImpl_permitted.wp_kept ⟨_, rfl⟩
    (ecallConfirmDepositsImpl_spec hdeposit hadvice hoperator))
  rintro ret _ _ ⟨⟨_, rfl⟩, _⟩
  by_cases hret : ret = 0
  · exact ⟨⟨by simp [hret], by simp [hret]⟩, hoperator⟩
  · exact ⟨⟨by simp [hret], by simp [hret]⟩, hoperator⟩

/-- The ECALLs that release the keys only leave the contract. -/
theorem ecallSettle_prepared (h : Prepared globals) (context : Pointer) (blocks : Bytes) :
    wp ({} : Monitor (Call Callback) Globals Unit)
      (fun _ last _ => Prepared last ∧ last.operator = globals.operator)
      (ecallSettle dep context blocks) globals () := by
  simp only [ecallSettle, setState, wp_bind, wp_get, wp_ite, wp_pure, wp_modify]
  refine ⟨fun _ => ⟨h, trivial⟩, fun _ => ?_⟩
  refine (ecallSettleImpl_within context blocks).quiet (fun _ _ _ => trivial) (fun _ _ _ => rfl)
    rfl ?_
  rintro ret _ rfl
  exact ⟨fun _ => ⟨.of_other (by decide) (by decide) (by decide), rfl⟩, fun _ => ⟨h, rfl⟩⟩

theorem ecallRefund_prepared (h : Prepared globals) (context : Pointer) (blocks : Bytes) :
    wp ({} : Monitor (Call Callback) Globals Unit)
      (fun _ last _ => Prepared last ∧ last.operator = globals.operator)
      (ecallRefund dep context blocks) globals () := by
  simp only [ecallRefund, setState, wp_bind, wp_get, wp_ite, wp_pure, wp_modify]
  refine ⟨fun _ => ⟨h, trivial⟩, fun _ => ?_⟩
  refine (ecallRefundImpl_within context blocks).quiet (fun _ _ _ => trivial) (fun _ _ _ => rfl)
    rfl ?_
  rintro ret _ rfl
  exact ⟨fun _ => ⟨.of_other (by decide) (by decide) (by decide), rfl⟩, fun _ => ⟨h, rfl⟩⟩

end Ecalls

section Runs
variable {dep : Deployment}

/-- A call of `ecall_connect_to_operator` that has returned 0. -/
def Connects (step : Step (enclave dep)) : Prop :=
  (∃ context playerId, step.op = Ecall.ecallConnectToOperator context playerId) ∧
    step.result = some (0 : Int32)

/-- One of the steps has completed the setup on the channel. -/
def SetUp (channel : ChannelRef) (steps : List (Step (enclave dep))) : Prop :=
  ∃ step ∈ steps, Connects step ∧ Exchanged channel step.events

/-- A deposit made in its state comes after a connection. -/
def DepositsConnected (earlier : List (Step (enclave dep))) (step : Step (enclave dep)) : Prop :=
  ∀ depositTransaction input, step.op = Ecall.ecallDepositAndInput depositTransaction input →
    step.before.state = .initialized → ∃ connect ∈ earlier, Connects connect

structure Inv (steps : List (Step (enclave dep))) (globals : Globals) : Prop where
  prepared : Prepared globals
  setUp : ∀ operator, globals.operator = some operator → SetUp operator.channel steps
  connected : (∃ step ∈ steps, Connects step) → globals.operator.isSome

theorem SetUp.append {channel : ChannelRef} {steps later : List (Step (enclave dep))}
    (h : SetUp channel steps) : SetUp channel (steps ++ later) := by
  obtain ⟨step, hstep, hconnects⟩ := h
  exact ⟨step, List.mem_append_left _ hstep, hconnects⟩

/-- A step that keeps `operator`. -/
theorem Inv.of_kept {steps : List (Step (enclave dep))} {step : Step (enclave dep)}
    (h : Inv steps step.before) (hprepared : Prepared step.after)
    (hoperator : step.after.operator = step.before.operator) (hother : ¬ Connects step) :
    Inv (steps ++ [step]) step.after where
  prepared := hprepared
  setUp operator hsome := (h.setUp operator (hoperator.symm.trans hsome)).append
  connected := by
    rintro ⟨connect, hconnect, hconnects⟩
    rw [hoperator]
    rcases List.mem_append.mp hconnect with hconnect | hconnect
    · exact h.connected ⟨connect, hconnect, hconnects⟩
    · rw [List.mem_singleton.mp hconnect] at hconnects
      exact absurd hconnects hother

/-- A connection is kept exactly if its setup is complete. -/
theorem Inv.connect {steps : List (Step (enclave dep))} {before last : Globals} {context : Pointer}
    {playerId : Nat} {events : List (Event (Call Callback))} {ret : Int32}
    (h : Inv steps before)
    (hexec : Exec (ecallConnectToOperator dep context playerId) before events last (some ret)) :
    Inv (steps ++ [⟨before, Ecall.ecallConnectToOperator context playerId, events, last,
      some ret⟩]) last := by
  cases hoperator : before.operator with
  | some operator =>
    have hbusy : wp tape (fun ret last _ => ret = -ebusy ∧ last = before)
        (ecallConnectToOperator dep context playerId) before [] := by
      simp [ecallConnectToOperator, ecallConnectToOperatorImpl, hoperator]
    obtain ⟨rfl, rfl⟩ := hexec.taped hbusy
    refine h.of_kept h.prepared rfl ?_
    rintro ⟨_, hret⟩
    exact absurd (Option.some.inj hret) ebusy_error
  | none =>
    obtain ⟨hkept, hdropped⟩ := hexec.taped
      (ecallConnectToOperatorImpl_spec dep.build.numPlayers dep.tcrypto context playerId hoperator)
    obtain ⟨_, _, rfl⟩ := (ecallConnectToOperatorImpl_permitted dep.build.numPlayers context
      playerId).kept hexec (⟨_, _, rfl⟩ : SetupOnly before before)
    refine ⟨⟨h.prepared.wallets, fun hdeposited => ?_⟩, fun operator hsome => ?_, ?_⟩
    · have hstale := (h.prepared.deposited hdeposited).1
      rw [hoperator] at hstale
      exact absurd hstale (by decide)
    · have hret : ret = 0 := by
        by_contra hret
        exact absurd (hsome.symm.trans (hdropped hret)) (by simp)
      obtain ⟨kept, hkept, hexchanged⟩ := hkept hret
      cases hsome.symm.trans hkept
      refine ⟨_, List.mem_append_right _ (List.mem_singleton_self _), ?_, hexchanged⟩
      exact ⟨⟨context, playerId, rfl⟩, congrArg some hret⟩
    · rintro ⟨connect, hconnect, hconnects⟩
      rcases List.mem_append.mp hconnect with hconnect | hconnect
      · have hstale := h.connected ⟨connect, hconnect, hconnects⟩
        rw [hoperator] at hstale
        exact absurd hstale (by decide)
      · rw [List.mem_singleton.mp hconnect] at hconnects
        obtain ⟨operator, hsome, _⟩ := hkept (Option.some.inj hconnects.2)
        rw [hsome]
        rfl

/-- What the ECALLs of the contract may read. -/
def Contract : Ecall → Prop
  | .ecallDepositAndInput _ _ | .ecallGetDeposits _ | .ecallConfirmDeposits => True
  | _ => False

theorem step_inv {steps : List (Step (enclave dep))} {step : Step (enclave dep)}
    (h : Inv steps step.before) (valid : step.Valid) (finished : step.result.isSome)
    (hmeets : DepositsConnected steps step) : Inv (steps ++ [step]) step.after := by
  obtain ⟨before, op, events, last, result⟩ := step
  obtain ⟨ret, rfl⟩ := Option.isSome_iff_exists.mp finished
  have hother {op : Ecall} (hop : ∀ context playerId, op ≠ .ecallConnectToOperator context playerId) :
      ¬ Connects (⟨before, op, events, last, some ret⟩ : Step (enclave dep)) := by
    rintro ⟨⟨context, playerId, hconnect⟩, _⟩
    exact hop context playerId hconnect
  cases op with
  | ecallConnectToOperator context playerId => exact h.connect valid
  | ecallInitialize context =>
    have hkept := Exec.returned valid (ecallInitialize_prepared h.prepared context)
    exact h.of_kept hkept.1 hkept.2 (hother (by simp))
  | ecallDepositAndInput depositTransaction input =>
    have hconnected := fun hstate => h.connected (hmeets depositTransaction input rfl hstate)
    have hkept := Exec.returned valid (ecallDepositAndInput_prepared h.prepared hconnected _ _)
    exact h.of_kept hkept.1 hkept.2 (hother (by simp))
  | ecallGetDeposits context =>
    have hkept := Exec.returned valid (ecallGetDeposits_prepared h.prepared context)
    exact h.of_kept hkept.1 hkept.2 (hother (by simp))
  | ecallConfirmDeposits =>
    have hkept := Exec.returned valid (ecallConfirmDeposits_prepared h.prepared)
    exact h.of_kept hkept.1 hkept.2 (hother (by simp))
  | ecallSettle context blocks =>
    have hkept := Exec.returned valid (ecallSettle_prepared h.prepared context blocks)
    exact h.of_kept hkept.1 hkept.2 (hother (by simp))
  | ecallRefund context blocks =>
    have hkept := Exec.returned valid (ecallRefund_prepared h.prepared context blocks)
    exact h.of_kept hkept.1 hkept.2 (hother (by simp))

/-- A step reads no `operator` that is `NULL`, and its messages are on a channel on which the
setup has been completed. -/
structure Gated (earlier : List (Step (enclave dep))) (step : Step (enclave dep)) : Prop where
  safe {β : Type} (c : Call Callback β) : .issued c ∈ step.events → SafeOn step.before.operator c
  setUp : ∀ operator, step.before.operator = some operator → SetUp operator.channel earlier

theorem step_safe {steps : List (Step (enclave dep))} {step : Step (enclave dep)}
    (h : Inv steps step.before) (valid : step.Valid) (hmeets : DepositsConnected steps step)
    (hcontract : Contract step.op) {β : Type} {c : Call Callback β}
    (hc : .issued c ∈ step.events) : SafeOn step.before.operator c := by
  obtain ⟨before, op, events, last, result⟩ := step
  cases op with
  | ecallDepositAndInput depositTransaction input =>
    have hconnected := fun hstate => h.connected (hmeets depositTransaction input rfl hstate)
    have hsafe := Exec.issued_safe valid
      (ecallDepositAndInput_prepared h.prepared hconnected depositTransaction input) hc
    exact hsafe.choose_spec.choose_spec
  | ecallGetDeposits context =>
    have hsafe := Exec.issued_safe valid (ecallGetDeposits_prepared h.prepared context) hc
    exact hsafe.choose_spec.choose_spec
  | ecallConfirmDeposits =>
    have hsafe := Exec.issued_safe valid (ecallConfirmDeposits_prepared h.prepared) hc
    exact hsafe.choose_spec.choose_spec
  | _ => exact absurd hcontract id

theorem inv_initial : Inv ([] : List (Step (enclave dep))) initial where
  prepared := ⟨by simp [initial], by simp [initial]⟩
  setUp operator hsome := absurd hsome (by simp [initial])
  connected := by
    rintro ⟨_, hconnect, _⟩
    cases hconnect

/-- In every run that connects before it deposits, waiting ones included, the contract reads
no `operator` that is `NULL`, and the setup has been completed on its channel. -/
theorem contract_after_setup (dep : Deployment) {steps : List (Step (enclave dep))}
    {state : Globals} (trace : Trace (enclave dep) initial steps state)
    (hconnected : Throughout DepositsConnected steps) :
    Throughout (fun earlier step => Contract step.op → Gated earlier step) steps := by
  have hrun := trace.throughout hconnected inv_initial fun _ _ => step_inv
  intro earlier step later hsplit hcontract
  obtain ⟨hinv, hvalid, hmeets⟩ := hrun earlier step later hsplit
  exact ⟨fun c => step_safe hinv hvalid hmeets hcontract, hinv.setUp⟩

end Runs

section Examples

theorem contract_connected : Throughout DepositsConnected contractSteps := by
  rintro (_ | ⟨connect, earlier⟩) step later hsplit depositTransaction input hop _
  · have hfirst : step.op = Ecall.ecallConnectToOperator 0 1 :=
      congrArg Step.op (List.cons.inj hsplit).1.symm
    cases hfirst.symm.trans hop
  · have hfirst := (List.cons.inj hsplit).1
    have hresult : (play contractHost 0 (ecallConnectToOperator zeroDeployment 0 1)
        initial).2.2 = some 0 := by
      decide +kernel
    exact ⟨connect, List.mem_cons_self, ⟨0, 1, congrArg Step.op hfirst.symm⟩, hfirst ▸ hresult⟩

/-- In the contract of the first of three players the setup precedes the deposit. -/
theorem contract_after_setup_played :
    Throughout (fun earlier step => Contract step.op → Gated earlier step) contractSteps :=
  contract_after_setup zeroDeployment (.resting contractSteps_run) contract_connected

def isFault : Event (Call Callback) → Bool
  | .issued .fault => true
  | _ => false

theorem fault_of_isFault {events : List (Event (Call Callback))} (h : events.any isFault) :
    .issued Call.fault ∈ events := by
  obtain ⟨event, hevent, hfault⟩ := List.any_eq_true.mp h
  cases event with
  | answered c answer => cases hfault
  | issued c =>
    cases c with
    | fault => exact hevent
    | _ => cases hfault

/-- Without a connection the deposit reads `operator->channel` through `NULL`. -/
theorem deposit_without_operator :
    ∃ (steps : List (Step (enclave zeroDeployment))) (state : Globals),
      Trace (enclave zeroDeployment) initial steps state ∧
      ¬ Throughout (fun earlier step => Contract step.op → Gated earlier step) steps := by
  let begun := playStep (enclave zeroDeployment) contractHost 0 initial (Ecall.ecallInitialize 0)
  let deposit := playStep (enclave zeroDeployment) contractHost 14 begun.after
    (Ecall.ecallDepositAndInput [1] [2])
  have hbegun : Run (enclave zeroDeployment) initial [begun] begun.after :=
    .next .start (playStep_valid _ _ _ _ _) (by decide +kernel)
  have hwaits : deposit.result = none := Option.isNone_iff_eq_none.mp (by decide +kernel)
  refine ⟨_, _, .inside hbegun (playStep_valid _ _ _ _ _ : deposit.Valid) hwaits, ?_⟩
  intro hgated
  have hfault : .issued Call.fault ∈ deposit.events := fault_of_isFault (by decide +kernel)
  exact (hgated [begun] deposit [] rfl trivial).safe Call.fault hfault

end Examples

end Auntie.Guarantees.PlayerSetup
