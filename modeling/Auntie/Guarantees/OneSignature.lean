import Auntie.Source.Player.Entry

/-!
# One signature for one settlement

The globals of `core.c` carry the clear-contract message from `ecall_get_deposits` to the
ECALLs after it. The state of `entry.c` only moves on, so that the message is stored once, the
deposit key signs once, and what is settled later is the transaction that was signed.
-/

namespace Auntie.Guarantees.OneSignature
open Auntie.Source Auntie.Source.Player Auntie.Interaction

/-- The state machine of `entry.c`. -/
def nextState (state : State) : Ecall → Int32 → State
  | .ecallConnectToOperator _ _, _ => state
  | .ecallInitialize _, ret => if state = .uninitialized ∧ ret = 0 then .initialized else state
  | .ecallDepositAndInput _ _, ret =>
    if state = .initialized then (if ret ≠ 0 then .aborted else .deposited) else state
  | .ecallGetDeposits _, ret =>
    if state = .deposited then (if ret ≠ 0 then .aborted else .gotDeposits) else state
  | .ecallConfirmDeposits, ret =>
    if state = .gotDeposits then (if ret ≠ 0 then .aborted else .confirmedDeposits) else state
  | .ecallSettle _ _, ret =>
    if (state = .confirmedDeposits ∨ state = .refunded) ∧ ret = 0 then .settled else state
  | .ecallRefund _ _, ret => if state ≠ .settled ∧ ret = 0 then .refunded else state

/-- The states in which `entry.c` calls the impl. -/
def Accepted (state : State) : Ecall → Prop
  | .ecallConnectToOperator _ _ => True
  | .ecallInitialize _ => state = .uninitialized
  | .ecallDepositAndInput _ _ => state = .initialized
  | .ecallGetDeposits _ => state = .deposited
  | .ecallConfirmDeposits => state = .gotDeposits
  | .ecallSettle _ _ => state = .confirmedDeposits ∨ state = .refunded
  | .ecallRefund _ _ => state ≠ .settled

/-- The states that neither sign nor store a message any more. -/
def Closed : State → Prop
  | .confirmedDeposits | .aborted | .refunded | .settled => True
  | _ => False

theorem Closed.next {state : State} (h : Closed state) (op : Ecall) (ret : Int32) :
    Closed (nextState state op ret) := by
  by_cases hret : ret = 0
  all_goals cases op
  all_goals cases state
  all_goals simp_all [Closed, nextState]

/-- Outside `DEPOSITED` the ECALL for the deposits changes nothing, and no other ECALL touches
what was stored. -/
structure Moved (op : Ecall) (before : Globals) (ret : Int32) (last : Globals) : Prop where
  accepted : ret = 0 → Accepted before.state op
  state : last.state = nextState before.state op ret
  settlement : (∃ context, op = .ecallGetDeposits context) ∧ before.state = .deposited ∨
    last.settlementSighash = before.settlementSighash ∧
      last.settlementTxid = before.settlementTxid

def signs {β : Type} : Call Callback β → Bool
  | .zcashSignTransaction _ _ _ => true
  | _ => false

/-- A signature of `ecall_confirm_deposits` with the deposit key. -/
def Authorized (op : Ecall) (globals : Globals) {β : Type} : Call Callback β → Prop
  | .zcashSignTransaction key _ sighash => op = .ecallConfirmDeposits ∧
    globals.state = .gotDeposits ∧ globals.depositWallet.map Wallet.key = some key ∧
    sighash = globals.settlementSighash
  | _ => True

section Ecalls
variable {dep : Deployment} {globals : Globals}

theorem unsigned {permits : Permits Callback} (h : ¬ permits.signs) {β : Type}
    (c : Call Callback β) (hc : c.Permitted permits) : signs c = false := by
  cases c with
  | zcashSignTransaction key advice sighash => exact absurd hc h
  | _ => rfl

theorem ecallConnectToOperator_moves (context : Pointer) (playerId : Nat) :
    wp (single signs (Authorized (.ecallConnectToOperator context playerId) globals))
      (fun ret last _ => Moved (.ecallConnectToOperator context playerId) globals ret last)
      (ecallConnectToOperator dep context playerId) globals 0 := by
  refine (ecallConnectToOperatorImpl_permitted _ _ _).single (unsigned (by simp)) ⟨_, _, rfl⟩ ?_
  rintro ret _ ⟨_, _, rfl⟩
  exact ⟨fun _ => trivial, rfl, .inr ⟨rfl, rfl⟩⟩

theorem ecallInitialize_moves (context : Pointer) :
    wp (single signs (Authorized (.ecallInitialize context) globals))
      (fun ret last _ => Moved (.ecallInitialize context) globals ret last)
      (ecallInitialize context) globals 0 := by
  simp only [ecallInitialize, setState, wp_bind, wp_get, wp_ite, wp_pure, wp_modify]
  refine ⟨fun hstate => ⟨fun h => absurd h einval_error, by simp [nextState, hstate], .inr ⟨rfl, rfl⟩⟩,
    fun hstate => ?_⟩
  refine (ecallInitializeImpl_within _).single (unsigned (by simp)) ⟨_, _, rfl⟩ ?_
  rintro ret _ ⟨_, _, rfl⟩
  exact ⟨fun hret => ⟨fun _ => not_not.mp hstate, by simp [nextState, not_not.mp hstate, hret], .inr ⟨rfl, rfl⟩⟩,
    fun hret => ⟨fun h => absurd h hret, by simp [nextState, hret], .inr ⟨rfl, rfl⟩⟩⟩

theorem ecallDepositAndInput_moves (depositTransaction input : Bytes) :
    wp (single signs (Authorized (.ecallDepositAndInput depositTransaction input) globals))
      (fun ret last _ => Moved (.ecallDepositAndInput depositTransaction input) globals ret last)
      (ecallDepositAndInput dep depositTransaction input) globals 0 := by
  simp only [ecallDepositAndInput, setState, wp_bind, wp_get, wp_ite, wp_pure, wp_modify]
  refine ⟨fun hstate => ⟨fun h => absurd h einval_error, by simp [nextState, hstate], .inr ⟨rfl, rfl⟩⟩,
    fun hstate => ?_⟩
  refine (ecallDepositAndInputImpl_within _ _ _).single (unsigned (by simp)) ⟨_, rfl⟩ ?_
  rintro ret _ ⟨_, rfl⟩
  exact ⟨fun _ => not_not.mp hstate, by simp [nextState, not_not.mp hstate], .inr ⟨rfl, rfl⟩⟩

theorem ecallGetDeposits_moves (context : Pointer) :
    wp (single signs (Authorized (.ecallGetDeposits context) globals))
      (fun ret last _ => Moved (.ecallGetDeposits context) globals ret last)
      (ecallGetDeposits dep context) globals 0 := by
  simp only [ecallGetDeposits, setState, wp_bind, wp_get, wp_ite, wp_pure, wp_modify]
  refine ⟨fun hstate => ⟨fun h => absurd h einval_error, by simp [nextState, hstate], .inr ⟨rfl, rfl⟩⟩,
    fun hstate => ?_⟩
  refine (ecallGetDepositsImpl_permitted _ _).single (unsigned (by simp)) ⟨_, _, _, _, rfl⟩ ?_
  rintro ret _ ⟨_, _, _, _, rfl⟩
  exact ⟨fun _ => not_not.mp hstate, by simp [nextState, not_not.mp hstate], .inl ⟨⟨context, rfl⟩, not_not.mp hstate⟩⟩

theorem ecallConfirmDepositsImpl_signs (hstate : globals.state = .gotDeposits) :
    wp (single signs (Authorized .ecallConfirmDeposits globals)) (fun _ _ _ => True)
      ecallConfirmDepositsImpl globals 0 := by
  simp only [ecallConfirmDepositsImpl, releaseAdvice, zcashExportSignature, zcashExport, wp_bind,
    wp_get]
  cases hdeposit : globals.depositWallet with
  | none => exact wp_deref_none.mpr (fun h => by cases h)
  | some depositWallet =>
    rw [wp_deref_some]
    cases globals.depositAdvice with
    | none => exact wp_deref_none.mpr (fun h => by cases h)
    | some advice =>
      simp only [wp_deref_some, wp_issue, wp_modify]
      refine ⟨fun _ => ⟨rfl, rfl, hstate, by rw [hdeposit]; rfl, rfl⟩, fun signature => ?_⟩
      refine ⟨(fun h => by cases h), fun _ => ?_⟩
      cases signature with
      | none => trivial
      | some signature =>
        simp only [wp_bind, wp_issue]
        refine ⟨(fun h => by cases h), fun address => ?_⟩
        cases address with
        | none => exact ⟨(fun h => by cases h), fun _ => trivial⟩
        | some address =>
          simp only [wp_bind, wp_issue, wp_pure]
          refine ⟨(fun h => by cases h), fun raw => ⟨(fun h => by cases h), fun _ => ?_⟩⟩
          refine ⟨(fun h => by cases h), fun msg => ?_⟩
          cases msg with
          | none => exact ⟨(fun h => by cases h), fun _ => trivial⟩
          | some msg =>
            simp only [wp_bind, wp_get]
            cases globals.operator with
            | none => exact wp_deref_none.mpr (fun h => by cases h)
            | some operator =>
              simp only [wp_deref_some, wp_issue, wp_pure]
              refine ⟨(fun h => by cases h), fun _ => ⟨(fun h => by cases h), fun _ => ?_⟩⟩
              exact ⟨(fun h => by cases h), fun _ => trivial⟩

theorem ecallConfirmDeposits_moves :
    wp (single signs (Authorized .ecallConfirmDeposits globals))
      (fun ret last _ => Moved .ecallConfirmDeposits globals ret last)
      ecallConfirmDeposits globals 0 := by
  simp only [ecallConfirmDeposits, setState, wp_bind, wp_get, wp_ite, wp_pure, wp_modify]
  refine ⟨fun hstate => ⟨fun h => absurd h einval_error, by simp [nextState, hstate], .inr ⟨rfl, rfl⟩⟩,
    fun hstate => ?_⟩
  refine wp_mono ?_ (ecallConfirmDepositsImpl_permitted.wp_kept ⟨_, rfl⟩
    (ecallConfirmDepositsImpl_signs (not_not.mp hstate)))
  rintro ret _ _ ⟨⟨_, rfl⟩, _⟩
  exact ⟨fun _ => not_not.mp hstate, by simp [nextState, not_not.mp hstate], .inr ⟨rfl, rfl⟩⟩

theorem ecallSettle_moves (context : Pointer) (blocks : Bytes) :
    wp (single signs (Authorized (.ecallSettle context blocks) globals))
      (fun ret last _ => Moved (.ecallSettle context blocks) globals ret last)
      (ecallSettle dep context blocks) globals 0 := by
  simp only [ecallSettle, setState, wp_bind, wp_get, wp_ite, wp_pure, wp_modify]
  refine ⟨fun hstate => ⟨fun h => absurd h einval_error, ?_, .inr ⟨rfl, rfl⟩⟩, fun hstate => ?_⟩
  · simp [nextState, hstate]
  · refine (ecallSettleImpl_within _ _).single (unsigned (by simp)) rfl ?_
    rintro ret _ rfl
    have hopen : globals.state = .confirmedDeposits ∨ globals.state = .refunded := by tauto
    exact ⟨fun hret => ⟨fun _ => hopen, by simp [nextState, hopen, hret], .inr ⟨rfl, rfl⟩⟩,
      fun hret => ⟨fun h => absurd h hret, by simp [nextState, hret], .inr ⟨rfl, rfl⟩⟩⟩

theorem ecallRefund_moves (context : Pointer) (blocks : Bytes) :
    wp (single signs (Authorized (.ecallRefund context blocks) globals))
      (fun ret last _ => Moved (.ecallRefund context blocks) globals ret last)
      (ecallRefund dep context blocks) globals 0 := by
  simp only [ecallRefund, setState, wp_bind, wp_get, wp_ite, wp_pure, wp_modify]
  refine ⟨fun hstate => ⟨fun h => absurd h einval_error, by simp [nextState, hstate], .inr ⟨rfl, rfl⟩⟩,
    fun hstate => ?_⟩
  refine (ecallRefundImpl_within _ _).single (unsigned (by simp)) rfl ?_
  rintro ret _ rfl
  exact ⟨fun hret => ⟨fun _ => hstate, by simp [nextState, hstate, hret], .inr ⟨rfl, rfl⟩⟩,
    fun hret => ⟨fun h => absurd h hret, by simp [nextState, hret], .inr ⟨rfl, rfl⟩⟩⟩

/-- Every ECALL moves the state machine, and signs at most once. -/
theorem handle_moves (op : Ecall) :
    wp (single signs (Authorized op globals)) (fun ret last _ => Moved op globals ret last)
      (handle dep op) globals 0 := by
  cases op with
  | ecallConnectToOperator context playerId => exact ecallConnectToOperator_moves context playerId
  | ecallInitialize context => exact ecallInitialize_moves context
  | ecallDepositAndInput depositTransaction input =>
    exact ecallDepositAndInput_moves depositTransaction input
  | ecallGetDeposits context => exact ecallGetDeposits_moves context
  | ecallConfirmDeposits => exact ecallConfirmDeposits_moves
  | ecallSettle context blocks => exact ecallSettle_moves context blocks
  | ecallRefund context blocks => exact ecallRefund_moves context blocks

end Ecalls

section Messages
variable {dep : Deployment} {globals : Globals}

/-- The only message that was received. -/
def ReceivedOnly (answer : Option ReceivedMessage) (events : List (Event (Call Callback))) : Prop :=
  ∀ channel other, .answered (.auntieMsgReceive channel) other ∈ events → other = answer

/-- What `ecall_get_deposits` keeps of the message. -/
def Stored (msg : ReceivedMessage) (globals : Globals) : Prop :=
  globals.settlementSighash = ClearContract.settlementSighash msg ∧
    globals.settlementTxid = ClearContract.settlementTxid msg

/-- One answer was received, and stored if it is a clear-contract message. -/
def StoresReceived (ret : Int32) (last : Globals) (events : List (Event (Call Callback))) : Prop :=
  ∃ answer, ReceivedOnly answer events ∧
    (∀ msg, answer = some msg → msg.msgType = msgClearContract → Stored msg last) ∧
    (ret = 0 → ∃ channel msg, msg.msgType = msgClearContract ∧
      .answered (.auntieMsgReceive channel) (some msg) ∈ events)

theorem ReceivedOnly.append {answer : Option ReceivedMessage}
    {events : List (Event (Call Callback))} (h : ReceivedOnly answer events) {β : Type}
    (c : Call Callback β) (hc : c.Permitted ({ outputs := fun _ => True } : Permits Callback))
    (value : β) : ReceivedOnly answer (events ++ [.issued c, .answered c value]) := by
  intro channel other hmem
  rcases List.mem_append.mp hmem with hmem | hmem
  · exact h channel other hmem
  · rcases List.mem_cons.mp hmem with hmem | hmem
    · cases hmem
    · cases List.mem_singleton.mp hmem
      exact absurd hc id

/-- The clear-contract message that was received is stored. -/
theorem ecallGetDepositsImpl_stores (build : Build) (context : Pointer) :
    wp tape StoresReceived (ecallGetDepositsImpl build context) globals [] := by
  simp only [ecallGetDepositsImpl, wp_bind, wp_get]
  cases globals.operator with
  | none => exact wp_deref_none.mpr trivial
  | some operator =>
    rw [wp_deref_some, wp_tape_issue]
    intro answer
    have honly : ReceivedOnly answer [.issued (.auntieMsgReceive operator.channel),
        .answered (.auntieMsgReceive operator.channel) answer] := by
      intro channel other hmem
      simp only [List.mem_cons, reduceCtorEq, List.not_mem_nil, or_false, false_or] at hmem
      cases hmem
      rfl
    cases answer with
    | none => exact ⟨none, honly, (by simp), fun h => absurd h eio_error⟩
    | some msg =>
      simp only [wp_ite, wp_bind, wp_tape_issue, wp_pure, wp_modify]
      constructor
      · intro htype _
        refine ⟨some msg, honly.append (.free msg.address) trivial (), ?_, fun h => absurd h eio_error⟩
        rintro _ ⟨rfl⟩ hclear
        exact absurd hclear htype
      · intro htype address
        have hreturned {ret : Int32} {last : Globals} {events : List (Event (Call Callback))}
            (hlast : Stored msg last) (honly : ReceivedOnly (some msg) events)
            (hmem : .answered (.auntieMsgReceive operator.channel) (some msg) ∈ events) :
            StoresReceived ret last events := by
          refine ⟨some msg, honly, ?_, fun _ => ⟨_, msg, not_not.mp htype, hmem⟩⟩
          rintro _ ⟨rfl⟩ _
          exact hlast
        have honly := honly.append (.malloc (ClearContract.outputLength msg)) trivial address
        cases address with
        | none =>
          simp only [wp_bind, wp_modify, wp_tape_issue, wp_pure]
          intro _
          exact hreturned ⟨rfl, rfl⟩ (honly.append (.free msg.address) trivial ()) (by simp)
        | some address =>
          simp only [wp_bind, wp_modify]
          have houtputs (output : Buffer) : (outputAllDeposits build context msg output).Within
              (Call.Permitted ({ outputs := fun _ => True } : Permits Callback)) (Stored msg) :=
            outputAllDeposits_within (fun _ _ => trivial) (fun _ => trivial) (fun _ h => h) _ _ _ _
          let knows (events : List (Event (Call Callback))) : Prop :=
            ReceivedOnly (some msg) events ∧
              .answered (.auntieMsgReceive operator.channel) (some msg) ∈ events
          have hknows {β : Type} (c : Call Callback β) (value : β)
              (events : List (Event (Call Callback))) (hc : c.Permitted { outputs := fun _ => True })
              (h : knows events) :
              knows ((tape : Monitor _ Globals _).answered
                ((tape : Monitor _ Globals _).issued events c) c value) := by
            have hevents : (tape : Monitor _ Globals _).answered
                ((tape : Monitor _ Globals _).issued events c) c value =
                events ++ [.issued c, .answered c value] := List.append_assoc _ _ _
            rw [hevents]
            exact ⟨h.1.append c hc value, List.mem_append_left _ h.2⟩
          refine (houtputs _).wp (fun _ _ _ _ _ => trivial) hknows ⟨rfl, rfl⟩ ⟨honly, by simp⟩ ?_
          intro ret last events hlast hevents
          exact hreturned hlast hevents.1 hevents.2

end Messages

section Steps
variable {dep : Deployment} {step : Step (enclave dep)}

/-- A clear-contract message that arrived in `ecall_get_deposits`. -/
def Receives (step : Step (enclave dep)) (msg : ReceivedMessage) : Prop :=
  (∃ context, step.op = Ecall.ecallGetDeposits context) ∧ msg.msgType = msgClearContract ∧
    ∃ channel, .answered (.auntieMsgReceive channel) (some msg) ∈ step.events

def releasesKey {β : Type} : Call Callback β → Bool
  | .callback output =>
    match output with
    | .ocallRefund _ _ => true
    | _ => false
  | _ => false

/-- The deposit key has left the enclave. -/
def ReleasesKey (step : Step (enclave dep)) : Prop :=
  (∃ context blocks, step.op = Ecall.ecallRefund context blocks) ∧
    step.events.any (issues releasesKey)

/-- A settlement that was granted. -/
def Settles (step : Step (enclave dep)) : Prop :=
  (∃ context blocks, step.op = Ecall.ecallSettle context blocks) ∧ step.result = some (0 : Int32)

/-- The signatures made in all steps. -/
def signatures (steps : List (Step (enclave dep))) : Nat :=
  (steps.map fun step => step.events.countP (issues signs)).sum

theorem signatures_append (steps : List (Step (enclave dep))) (step : Step (enclave dep)) :
    signatures (steps ++ [step]) = signatures steps + step.events.countP (issues signs) := by
  simp [signatures]

theorem signatures_ne_zero {steps : List (Step (enclave dep))} (hstep : step ∈ steps)
    {key advice : Pointer} {sighash : Blocks.Digest}
    (h : .issued (.zcashSignTransaction key advice sighash) ∈ step.events) :
    signatures steps ≠ 0 := by
  intro hnone
  have hzero := List.sum_eq_zero_iff_forall_eq_nat.mp hnone _ (List.mem_map_of_mem hstep)
  exact List.countP_eq_zero.mp hzero _ h rfl

theorem authorized_of_issued (valid : step.Valid) {key advice : Pointer} {sighash : Blocks.Digest}
    (h : .issued (.zcashSignTransaction key advice sighash) ∈ step.events) :
    step.op = .ecallConfirmDeposits ∧ step.before.state = .gotDeposits ∧
      step.before.depositWallet.map Wallet.key = some key ∧
      sighash = step.before.settlementSighash := by
  obtain ⟨_, _, hsafe⟩ := Exec.issued_safe valid (handle_moves step.op) h
  exact (hsafe rfl).2

/-- One call signs once, and only to confirm the deposits. -/
theorem step_signs (valid : step.Valid) : step.events.countP (issues signs) ≤ 1 ∧
    (step.events.countP (issues signs) ≠ 0 →
      step.op = .ecallConfirmDeposits ∧ step.before.state = .gotDeposits) := by
  constructor
  · have hcount := single_count (Exec.accepts valid (handle_moves step.op))
    omega
  · intro hcount
    obtain ⟨event, hevent, hsigns⟩ := List.countP_pos_iff.mp (Nat.pos_of_ne_zero hcount)
    cases event with
    | answered c answer => cases hsigns
    | issued c =>
      cases c with
      | zcashSignTransaction key advice sighash =>
        have hauthorized := authorized_of_issued valid hevent
        exact ⟨hauthorized.1, hauthorized.2.1⟩
      | _ => cases hsigns

theorem ecallGetDeposits_refused {context : Pointer} {before last : Globals}
    {events : List (Event (Call Callback))} {result : Option Int32}
    (hstate : before.state ≠ .deposited)
    (hexec : Exec (ecallGetDeposits dep context) before events last result) : events = [] := by
  simp only [ecallGetDeposits, exec_get_bind, if_pos hstate, exec_pure] at hexec
  exact hexec.1

theorem Receives.state {msg : ReceivedMessage} (h : Receives step msg) (valid : step.Valid) :
    step.before.state = .deposited := by
  obtain ⟨before, op, events, last, result⟩ := step
  obtain ⟨⟨context, rfl⟩, _, channel, hevents⟩ := h
  by_contra hstate
  have hnone : events = [] := ecallGetDeposits_refused hstate valid
  rw [hnone] at hevents
  cases hevents

theorem ecallGetDeposits_stores (context : Pointer) {before last : Globals}
    {events : List (Event (Call Callback))} {ret : Int32} (hstate : before.state = .deposited)
    (hexec : Exec (ecallGetDeposits dep context) before events last (some ret)) :
    StoresReceived ret last events := by
  have hstores : wp tape StoresReceived (ecallGetDeposits dep context) before [] := by
    simp only [ecallGetDeposits, setState, wp_bind, wp_get, wp_ite, wp_pure, wp_modify]
    exact ⟨fun h => absurd hstate h, fun _ => ecallGetDepositsImpl_stores _ _⟩
  exact hexec.taped hstores

/-- What a step has received is stored after it. -/
theorem Receives.stored {msg : ReceivedMessage} (h : Receives step msg) (valid : step.Valid)
    (finished : step.result.isSome) :
    Stored msg step.after ∧ ∀ other, Receives step other → other = msg := by
  have hstate := h.state valid
  obtain ⟨before, op, events, last, result⟩ := step
  obtain ⟨⟨context, rfl⟩, htype, channel, hevents⟩ := h
  obtain ⟨ret, rfl⟩ := Option.isSome_iff_exists.mp finished
  obtain ⟨answer, honly, hstored, _⟩ := ecallGetDeposits_stores context hstate valid
  have hanswer := honly channel _ hevents
  refine ⟨hstored msg hanswer.symm htype, ?_⟩
  rintro other ⟨_, _, channel', hother⟩
  exact Option.some.inj ((honly channel' _ hother).trans hanswer.symm)

theorem received_of_returned (valid : step.Valid) {context : Pointer}
    (hop : step.op = Ecall.ecallGetDeposits context) (hstate : step.before.state = .deposited)
    (hret : step.result = some (0 : Int32)) : ∃ msg, Receives step msg := by
  obtain ⟨before, op, events, last, result⟩ := step
  cases hop
  cases hret
  obtain ⟨_, _, _, hreceived⟩ := ecallGetDeposits_stores context hstate valid
  obtain ⟨channel, msg, htype, hevents⟩ := hreceived rfl
  exact ⟨msg, ⟨context, rfl⟩, htype, channel, hevents⟩

/-- Where the deposit key was released, the refund is granted. -/
theorem ecallRefund_releases (context : Pointer) (blocks : Bytes) (globals : Globals) :
    wp tape (fun ret _ events => ret ≠ 0 → ¬ events.any (issues releasesKey))
      (ecallRefund dep context blocks) globals [] := by
  simp only [ecallRefund, setState, wp_bind, wp_get, wp_ite, wp_pure, wp_modify]
  refine ⟨fun _ _ => by simp, fun _ => ?_⟩
  cases hchain : chainError dep.build.refundDelayBlocks
      (Blocks.zcashBlocksSinceCheckpoint dep.crates dep.build blocks) with
  | some error =>
    rw [ecallRefundImpl_refused hchain]
    exact ⟨fun _ _ => by simp, fun _ _ => by simp⟩
  | none =>
    simp only [ecallRefundImpl, hchain, zcashExportKey, zcashExport, wp_bind, wp_get]
    cases globals.depositWallet with
    | none => exact wp_deref_none.mpr trivial
    | some depositWallet =>
      rw [wp_deref_some, wp_tape_issue]
      intro address
      cases address with
      | none =>
        exact ⟨fun _ _ => by simp [issues, releasesKey], fun _ _ => by simp [issues, releasesKey]⟩
      | some address =>
        simp only [wp_bind, wp_tape_issue, wp_pure]
        intro depositKey _ _
        exact ⟨fun _ h => absurd rfl h, fun h => absurd trivial h⟩

theorem ReleasesKey.state (h : ReleasesKey step) (valid : step.Valid)
    (finished : step.result.isSome) : Closed step.after.state := by
  obtain ⟨before, op, events, last, result⟩ := step
  obtain ⟨⟨context, blocks, rfl⟩, hevents⟩ := h
  obtain ⟨ret, rfl⟩ := Option.isSome_iff_exists.mp finished
  have hmoved := Exec.returned valid (handle_moves (.ecallRefund context blocks))
  have hret : ret = (0 : Int32) := by
    by_contra hret
    exact Exec.taped valid (ecallRefund_releases context blocks before) hret hevents
  have hstate : before.state ≠ .settled := hmoved.accepted hret
  have hafter : last.state = .refunded := by
    rw [hmoved.state]
    simp [nextState, hstate, hret]
  exact hafter ▸ trivial

end Steps

section Verification
variable {dep : Deployment}

/-- The chain shows the transaction, buried under enough blocks. -/
def Passes (dep : Deployment) (txid : Blocks.Digest) (blocks : Bytes) : Prop :=
  ∃ count, (Blocks.zcashAuthorizedAndBuried dep.crates dep.build txid blocks).outcome =
    .returned count ∧ chainError dep.build.settleDelayBlocks count = none

def releasesOutput {β : Type} : Call Callback β → Bool
  | .callback output =>
    match output with
    | .ocallSettle _ _ _ _ => true
    | _ => false
  | _ => false

/-- A settlement is granted, and the payout key released, on the stored transaction only. -/
theorem ecallSettle_verifies {context : Pointer} {blocks : Bytes} {before last : Globals}
    {events : List (Event (Call Callback))} {result : Option Int32}
    (hexec : Exec (ecallSettle dep context blocks) before events last result)
    (h : result = some 0 ∨ events.any (issues releasesOutput)) :
    Passes dep before.settlementTxid blocks := by
  by_contra hrefused
  let withheld : Monitor (Call Callback) Globals Unit := { safe _ _ c := releasesOutput c = false }
  have hspec : wp withheld (fun ret _ _ => ret ≠ 0) (ecallSettle dep context blocks) before () := by
    simp only [ecallSettle, setState, wp_bind, wp_get, wp_ite, wp_pure, wp_modify]
    refine ⟨fun _ => einval_error, fun _ => ?_⟩
    refine ecallSettleImpl_refused (fun count houtcome hchain => ?_) rfl fun error herror => ?_
    · exact hrefused ⟨count, houtcome, hchain⟩
    · exact ⟨fun _ => herror, fun _ => herror⟩
  rcases h with rfl | hevents
  · exact hexec.returned hspec rfl
  · obtain ⟨event, hevent, hreleases⟩ := List.any_eq_true.mp hevents
    cases event with
    | answered c answer => cases hreleases
    | issued c =>
      obtain ⟨_, _, hsafe⟩ := hexec.issued_safe hspec hevent
      cases hsafe.symm.trans hreleases

end Verification

section Runs
variable {dep : Deployment}

/-- The states before a clear-contract message is stored. -/
def Early : State → Prop
  | .uninitialized | .initialized | .deposited => True
  | _ => False

structure Inv (steps : List (Step (enclave dep))) (globals : Globals) : Prop where
  early : Early globals.state → ∀ get ∈ steps, ∀ msg, ¬ Receives get msg
  stored : ∀ get ∈ steps, ∀ msg, Receives get msg →
    Stored msg globals ∧ ∀ other ∈ steps, ∀ msg', Receives other msg' → msg' = msg
  received : globals.state = .gotDeposits → ∃ get ∈ steps, ∃ msg, Receives get msg
  unsigned : ¬ Closed globals.state →
    signatures steps = 0 ∧ ∀ step ∈ steps, ¬ ReleasesKey step
  once : signatures steps ≤ 1
  settled : ∀ step ∈ steps, Settles step → globals.state = .settled

theorem Early.of_next {state : State} {op : Ecall} {ret : Int32}
    (h : Early (nextState state op ret)) :
    Early state ∧ ¬ (state = .deposited ∧ ∃ context, op = .ecallGetDeposits context) := by
  by_cases hret : ret = 0
  all_goals cases op
  all_goals cases state
  all_goals simp_all [Early, nextState]

theorem gotDeposits_of_next {state : State} {op : Ecall} {ret : Int32}
    (h : nextState state op ret = .gotDeposits) : state = .gotDeposits ∨
      state = .deposited ∧ ret = 0 ∧ ∃ context, op = .ecallGetDeposits context := by
  by_cases hret : ret = 0
  all_goals cases op
  all_goals cases state
  all_goals simp_all [nextState]

theorem nextState_settled (op : Ecall) (ret : Int32) : nextState .settled op ret = .settled := by
  cases op
  all_goals simp [nextState]

theorem settled_of_settles {state : State} {context : Pointer} {blocks : Bytes}
    (h : Accepted state (.ecallSettle context blocks)) :
    nextState state (.ecallSettle context blocks) 0 = .settled :=
  if_pos ⟨h, rfl⟩

theorem step_moved {step : Step (enclave dep)} (valid : step.Valid) {ret : Int32}
    (hret : step.result = some ret) : Moved step.op step.before ret step.after := by
  obtain ⟨before, op, events, last, result⟩ := step
  cases hret
  exact Exec.returned valid (handle_moves op)

section Step
variable {steps : List (Step (enclave dep))} {step : Step (enclave dep)} {ret : Int32}

/-- What was received before stays the only message, and stays stored. -/
theorem Inv.stored_next (h : Inv steps step.before) (valid : step.Valid)
    (hret : step.result = some ret) {get : Step (enclave dep)} (hget : get ∈ steps ++ [step])
    {msg : ReceivedMessage} (hreceives : Receives get msg) : Stored msg step.after ∧
      ∀ other ∈ steps ++ [step], ∀ msg', Receives other msg' → msg' = msg := by
  have finished : step.result.isSome := by rw [hret]; rfl
  rcases List.mem_append.mp hget with hget | hget
  · have hother : step.before.state ≠ .deposited := by
      intro hstate
      exact h.early (by rw [hstate]; trivial) get hget msg hreceives
    obtain ⟨hstored, hsingle⟩ := h.stored get hget msg hreceives
    have hmoved := step_moved valid hret
    refine ⟨?_, fun other hmem msg' hmsg' => ?_⟩
    · rcases hmoved.settlement with ⟨_, hstate⟩ | ⟨hsighash, htxid⟩
      · exact absurd hstate hother
      · exact ⟨hsighash.trans hstored.1, htxid.trans hstored.2⟩
    · rcases List.mem_append.mp hmem with hmem | hmem
      · exact hsingle other hmem msg' hmsg'
      · rw [List.mem_singleton.mp hmem] at hmsg'
        exact absurd (hmsg'.state valid) hother
  · rw [List.mem_singleton.mp hget] at hreceives
    obtain ⟨hstored, hsingle⟩ := hreceives.stored valid finished
    refine ⟨hstored, fun other hmem msg' hmsg' => ?_⟩
    rcases List.mem_append.mp hmem with hmem | hmem
    · have hearly : Early step.before.state := by
        rw [hreceives.state valid]
        trivial
      exact absurd hmsg' (h.early hearly other hmem msg')
    · rw [List.mem_singleton.mp hmem] at hmsg'
      exact hsingle msg' hmsg'

theorem Inv.early_next (h : Inv steps step.before) (valid : step.Valid)
    (hret : step.result = some ret) (hearly : Early step.after.state)
    {get : Step (enclave dep)} (hget : get ∈ steps ++ [step]) {msg : ReceivedMessage} :
    ¬ Receives get msg := by
  intro hreceives
  rw [(step_moved valid hret).state] at hearly
  obtain ⟨hbefore, hother⟩ := hearly.of_next
  rcases List.mem_append.mp hget with hget | hget
  · exact h.early hbefore get hget msg hreceives
  · rw [List.mem_singleton.mp hget] at hreceives
    exact hother ⟨hreceives.state valid, hreceives.1⟩

theorem Inv.received_next (h : Inv steps step.before) (valid : step.Valid)
    (hret : step.result = some ret) (hstate : step.after.state = .gotDeposits) :
    ∃ get ∈ steps ++ [step], ∃ msg, Receives get msg := by
  rw [(step_moved valid hret).state] at hstate
  rcases gotDeposits_of_next hstate with hstate | ⟨hstate, hzero, context, hop⟩
  · obtain ⟨get, hget, hreceives⟩ := h.received hstate
    exact ⟨get, List.mem_append_left _ hget, hreceives⟩
  · rw [hzero] at hret
    exact ⟨step, by simp, received_of_returned valid hop hstate hret⟩

/-- A state that is open after a step was open before it, and the step did not sign. -/
theorem Inv.unsigned_next (h : Inv steps step.before) (valid : step.Valid)
    (hret : step.result = some ret) (hopen : ¬ Closed step.after.state) :
    signatures (steps ++ [step]) = 0 ∧ ∀ other ∈ steps ++ [step], ¬ ReleasesKey other := by
  have hmoved := step_moved valid hret
  have finished : step.result.isSome := by rw [hret]; rfl
  have hbefore : ¬ Closed step.before.state := by
    intro hclosed
    rw [hmoved.state] at hopen
    exact hopen (hclosed.next _ _)
  obtain ⟨hnone, hunreleased⟩ := h.unsigned hbefore
  constructor
  · rw [signatures_append, hnone, Nat.zero_add]
    by_contra hsigns
    obtain ⟨hop, hstate⟩ := (step_signs valid).2 hsigns
    rw [hmoved.state, hop, hstate] at hopen
    by_cases hzero : ret = 0
    all_goals exact hopen (by simp [nextState, hzero, Closed])
  · intro other hother hreleases
    rcases List.mem_append.mp hother with hother | hother
    · exact hunreleased other hother hreleases
    · rw [List.mem_singleton.mp hother] at hreleases
      exact hopen (hreleases.state valid finished)

/-- At most one signature is made, also in a step that has not returned. -/
theorem Inv.once_next (h : Inv steps step.before) (valid : step.Valid) :
    signatures (steps ++ [step]) ≤ 1 := by
  rw [signatures_append]
  obtain ⟨hone, hsigned⟩ := step_signs valid
  by_cases hnone : step.events.countP (issues signs) = 0
  · rw [hnone]
    exact h.once
  · have hopen : ¬ Closed step.before.state := by
      rw [(hsigned hnone).2]
      exact id
    rw [(h.unsigned hopen).1, Nat.zero_add]
    exact hone

theorem Inv.settled_next (h : Inv steps step.before) (valid : step.Valid)
    (hret : step.result = some ret) {settle : Step (enclave dep)}
    (hsettle : settle ∈ steps ++ [step]) (hsettles : Settles settle) :
    step.after.state = .settled := by
  have hmoved := step_moved valid hret
  rw [hmoved.state]
  rcases List.mem_append.mp hsettle with hsettle | hsettle
  · rw [h.settled settle hsettle hsettles]
    exact nextState_settled _ _
  · rw [List.mem_singleton.mp hsettle] at hsettles
    obtain ⟨⟨context, blocks, hop⟩, hzero⟩ := hsettles
    have hzero : ret = 0 := Option.some.inj (hret.symm.trans hzero)
    have haccepted := hmoved.accepted hzero
    rw [hop] at haccepted ⊢
    rw [hzero]
    exact settled_of_settles haccepted

theorem step_inv (h : Inv steps step.before) (valid : step.Valid)
    (finished : step.result.isSome) : Inv (steps ++ [step]) step.after := by
  obtain ⟨ret, hret⟩ := Option.isSome_iff_exists.mp finished
  exact {
    early := fun hearly _ hget _ => h.early_next valid hret hearly hget
    stored := fun _ hget _ hreceives => h.stored_next valid hret hget hreceives
    received := h.received_next valid hret
    unsigned := h.unsigned_next valid hret
    once := h.once_next valid
    settled := fun _ hsettle hsettles => h.settled_next valid hret hsettle hsettles }

theorem inv_initial : Inv ([] : List (Step (enclave dep))) initial where
  early _ _ := by simp
  stored _ := by simp
  received h := absurd h (by simp [initial])
  unsigned _ := ⟨rfl, fun _ => (by simp)⟩
  once := Nat.zero_le 1
  settled _ := by simp

end Step

/-- What the signature made in `signing` is for: the only clear-contract message the run has
received, the one that every later settlement verifies. -/
structure SignedFor (steps earlier later : List (Step (enclave dep))) (signing : Step (enclave dep))
    (key : Pointer) (sighash : Blocks.Digest) (msg : ReceivedMessage) : Prop where
  key : signing.before.depositWallet.map Wallet.key = some key
  sighash : sighash = ClearContract.settlementSighash msg
  received : ∃ get ∈ earlier, Receives get msg
  only : ∀ step ∈ steps, ∀ other, Receives step other → other = msg
  unreleased : ∀ step ∈ earlier, ¬ ReleasesKey step
  verified : ∀ settle ∈ later, ∀ context blocks, settle.op = Ecall.ecallSettle context blocks →
    settle.before.settlementTxid = ClearContract.settlementTxid msg ∧
      (settle.result = some (0 : Int32) ∨ settle.events.any (issues releasesOutput) →
        Passes dep (ClearContract.settlementTxid msg) blocks)

/-- In every run, waiting ones included, the deposit key signs at most once; the signature is
for the only clear-contract message of the run, comes before every refund, and all that is
settled later is the transaction of that message. After a settlement no refund succeeds. -/
theorem signed_once_for_one_message (dep : Deployment) {steps : List (Step (enclave dep))}
    {state : Globals} (trace : Trace (enclave dep) initial steps state) :
    signatures steps ≤ 1 ∧
    (∀ earlier signing later, steps = earlier ++ signing :: later →
      ∀ key advice sighash, .issued (.zcashSignTransaction key advice sighash) ∈ signing.events →
        ∃ msg, SignedFor steps earlier later signing key sighash msg) ∧
    (∀ earlier settled later, steps = earlier ++ settled :: later → Settles settled →
      ∀ refund ∈ later, ∀ context blocks, refund.op = Ecall.ecallRefund context blocks →
        refund.result ≠ some (0 : Int32)) := by
  have hrun := trace.throughout (fun _ _ _ _ => trivial : Throughout (fun _ _ => True) steps)
    inv_initial fun _ _ hinv valid finished _ => step_inv hinv valid finished
  refine ⟨?_, ?_, ?_⟩
  · rcases List.eq_nil_or_concat steps with rfl | ⟨earlier, last, hsplit⟩
    · exact Nat.zero_le 1
    · rw [List.concat_eq_append] at hsplit
      obtain ⟨hinv, hvalid, _⟩ := hrun earlier last [] hsplit
      rw [hsplit]
      exact hinv.once_next hvalid
  · rintro earlier signing later rfl key advice sighash hsigns
    obtain ⟨hinv, hvalid, _⟩ := hrun earlier signing later rfl
    obtain ⟨hop, hstate, hkey, hsighash⟩ := authorized_of_issued hvalid hsigns
    have hopen : ¬ Closed signing.before.state := by
      rw [hstate]
      exact id
    obtain ⟨get, hget, msg, hreceives⟩ := hinv.received hstate
    obtain ⟨hstored, hsingle⟩ := hinv.stored get hget msg hreceives
    have hlater {step : Step (enclave dep)} (hstep : step ∈ later) : step.Valid ∧
        Closed step.before.state ∧ Stored msg step.before := by
      obtain ⟨between, rest, rfl⟩ := List.append_of_mem hstep
      obtain ⟨hinv, hvalid, _⟩ := hrun (earlier ++ signing :: between) step rest (by simp)
      refine ⟨hvalid, ?_, (hinv.stored get (by simp [hget]) msg hreceives).1⟩
      by_contra hopen
      exact signatures_ne_zero (by simp) hsigns (hinv.unsigned hopen).1
    refine ⟨msg, hkey, hsighash.trans hstored.1, ⟨get, hget, hreceives⟩, ?_,
      (hinv.unsigned hopen).2, ?_⟩
    · intro step hstep other hother
      rcases List.mem_append.mp hstep with hstep | hstep
      · exact hsingle step hstep other hother
      · rcases List.mem_cons.mp hstep with rfl | hstep
        · obtain ⟨context, hget⟩ := hother.1
          cases hop.symm.trans hget
        · obtain ⟨hvalid, hclosed, _⟩ := hlater hstep
          rw [hother.state hvalid] at hclosed
          exact absurd hclosed id
    · intro settle hsettle context blocks hsettleOp
      obtain ⟨hvalid, _, hstored⟩ := hlater hsettle
      refine ⟨hstored.2, fun hreleases => ?_⟩
      obtain ⟨before, op, events, last, result⟩ := settle
      cases hsettleOp
      have hpasses := ecallSettle_verifies hvalid hreleases
      rwa [hstored.2] at hpasses
  · rintro earlier settled later rfl hsettles refund hrefund context blocks hop hzero
    obtain ⟨between, rest, rfl⟩ := List.append_of_mem hrefund
    obtain ⟨hinv, hvalid, _⟩ := hrun (earlier ++ settled :: between) refund rest (by simp)
    have haccepted := (step_moved hvalid hzero).accepted rfl
    rw [hop, hinv.settled settled (by simp) hsettles] at haccepted
    exact haccepted rfl

end Runs

section Examples

open Blocks (zeroBlocks zeroHeaders zeroBlocks_buried)

/-- A player that has confirmed is refunded, settles, and asks for a refund once more. -/
theorem withdrawals_run : ∃ refund settle again : Step (enclave zeroDeployment),
    Run (enclave zeroDeployment) initial (contractSteps ++ [refund, settle, again]) again.after ∧
      refund.result = some (0 : Int32) ∧ Settles settle ∧
      settle.op = Ecall.ecallSettle 0 (zeroBlocks 80) ∧
      again.op = Ecall.ecallRefund 0 (zeroHeaders 40) := by
  have hstate : contractState.state = .confirmedDeposits := by decide +kernel
  have hwallet : contractState.depositWallet = some ⟨1, 1, 1⟩ := by decide +kernel
  have hpayout : contractState.payoutWallet = some ⟨1, 1, 1⟩ := by decide +kernel
  have htxid : contractState.settlementTxid = FixedBytes.zero 32 := by decide +kernel
  obtain ⟨refund, hrefund, hbefore, -, hret, hafter, -⟩ := Player.ecallRefund_releases 0
    (by rw [hstate]; decide) zeroHeaders_pass hwallet (FixedBytes.zero 32)
  have hrefunded := Run.next (hbefore ▸ contractSteps_run) hrefund (by rw [hret]; rfl)
  have hburied : (Blocks.zcashAuthorizedAndBuried zeroDeployment.crates zeroDeployment.build
      refund.after.settlementTxid (zeroBlocks 80)).outcome = .returned (Int32.ofNat 80) := by
    rw [hafter, htxid]
    exact zeroBlocks_buried 80
  obtain ⟨settle, hsettle, hbefore, hsettleOp, hsettled, hafter', -⟩ := Player.ecallSettle_releases 0
    (.inr (by rw [hafter])) hburied (by decide) (by rw [hafter, ← hwallet])
    (by rw [hafter, ← hpayout]) (FixedBytes.zero 32)
  have hsettledRun := Run.next (hbefore ▸ hrefunded) hsettle (by rw [hsettled]; rfl)
  let again : Step (enclave zeroDeployment) :=
    ⟨settle.after, .ecallRefund 0 (zeroHeaders 40), [], settle.after, some (-einval)⟩
  have hagain : again.Valid := by
    change Exec (ecallRefund zeroDeployment 0 (zeroHeaders 40)) settle.after [] settle.after
      (some (-einval))
    simp [ecallRefund, hafter']
  refine ⟨refund, settle, again, ?_, hret, ⟨⟨_, _, hsettleOp⟩, hsettled⟩, hsettleOp, rfl⟩
  have hrun : Run (enclave zeroDeployment) initial (contractSteps ++ [refund] ++ [settle] ++ [again])
      again.after := Run.next hsettledRun hagain rfl
  simpa using hrun

/-- The first of three players confirms with its one signature; it is refunded and settles the
transaction it has signed, and is not refunded again. -/
theorem signed_once_for_one_message_played : ∃ refund settle again : Step (enclave zeroDeployment),
    refund.result = some (0 : Int32) ∧ Settles settle ∧ again.result ≠ some (0 : Int32) ∧
    signatures (contractSteps ++ [refund, settle, again]) = 1 ∧
    ∃ earlier signing key sighash msg, contractSteps = earlier ++ [signing] ∧
      SignedFor (contractSteps ++ [refund, settle, again]) earlier [refund, settle, again] signing
        key sighash msg ∧
      Passes zeroDeployment (ClearContract.settlementTxid msg) (zeroBlocks 80) := by
  obtain ⟨refund, settle, again, hrun, hrefunded, hsettles, hsettle, hagain⟩ := withdrawals_run
  obtain ⟨hone, hsigned, hfinal⟩ := signed_once_for_one_message zeroDeployment (.resting hrun)
  obtain ⟨signing, hlast⟩ : ∃ signing, contractSteps = contractSteps.take 4 ++ [signing] :=
    ⟨_, rfl⟩
  have hsplit : contractSteps ++ [refund, settle, again] =
      contractSteps.take 4 ++ signing :: [refund, settle, again] := by
    rw [List.append_cons (contractSteps.take 4), ← hlast]
  have hget : contractSteps[4]? = some signing := by
    rw [hlast]
    rfl
  have hsigns : (contractSteps[4]?.any fun step => step.events.any (issues signs)) = true := by
    decide +kernel
  rw [hget] at hsigns
  obtain ⟨event, hevent, hissues⟩ := List.any_eq_true.mp hsigns
  cases event with
  | answered c answer => cases hissues
  | issued c =>
    cases c with
    | zcashSignTransaction key advice sighash =>
      obtain ⟨msg, hmsg⟩ := hsigned _ signing _ hsplit key advice sighash hevent
      have hmem : signing ∈ contractSteps ++ [refund, settle, again] := by
        rw [hsplit]
        exact List.mem_append_right _ List.mem_cons_self
      have hne := signatures_ne_zero hmem hevent
      have hagain' := hfinal (contractSteps ++ [refund]) settle [again] (by simp) hsettles again
        (List.mem_singleton_self again) 0 (zeroHeaders 40) hagain
      have hpasses := (hmsg.verified settle (by simp) 0 (zeroBlocks 80) hsettle).2 (.inl hsettles.2)
      exact ⟨refund, settle, again, hrefunded, hsettles, hagain', by omega, _, signing, key,
        sighash, msg, hlast, hmsg, hpasses⟩
    | _ => cases hissues

end Examples

end Auntie.Guarantees.OneSignature
