import Auntie.Guarantees.ClearContractDecoding
import Auntie.Guarantees.DepositDecoding
import Auntie.Guarantees.OneSignature
import Auntie.Interaction.Contract

/-!
# What a player has seen when it signs

The message with the deposit of a player carries an advice that its enclave exported, and
`ecall_confirm_deposits` signs the hash that came with the deposit transactions the enclave has
shown to its host: all of them, and no others.
-/

namespace Auntie.Guarantees.InformedSignature
open Auntie.Source Auntie.Source.Player Auntie.Interaction
open DepositDecoding (Deposit)
open ClearContractDecoding (shown shownIn shownIn_append)

section Calls
open Program (Within)
variable {globals : Globals}

/-- The message is that of a deposit whose fields the Rust library has exported. -/
def Deposits (depositTransaction input : Bytes) (events : List (Event (Call Callback)))
    (msg : Message) : Prop :=
  ∃ deposit : Deposit, deposit.depositTransaction = depositTransaction ∧ deposit.input = input ∧
    msg = deposit.message ∧
    (∃ advice, .answered (.zcashExportAdviceImpl advice) deposit.advice ∈ events) ∧
    ∃ address, .answered (.zcashExportAddressImpl address) deposit.payoutAddress ∈ events

/-- What the calls of an ECALL say of it: only a deposit sends deposit messages, and only
`ecall_get_deposits` shows deposit transactions. -/
def Belongs (op : Ecall) (events : List (Event (Call Callback))) {β : Type} :
    Call Callback β → Prop
  | .auntieMsgSend msg _ => msg.msgType = msgDepositAndInput → ∃ depositTransaction input,
    op = .ecallDepositAndInput depositTransaction input ∧
      Deposits depositTransaction input events msg
  | .callback output =>
    match output with
    | .ocallGetDeposits _ _ => ∃ context, op = .ecallGetDeposits context
    | _ => True
  | _ => True

/-- The tape, and the calls that may follow what it holds. -/
def belonging (op : Ecall) : Monitor (Call Callback) Globals (List (Event (Call Callback))) :=
  { (tape : Monitor (Call Callback) Globals _) with
    safe _ events c := Belongs op events c }

theorem Deposits.mono {depositTransaction input : Bytes} {events later : List (Event (Call Callback))}
    {msg : Message} (h : Deposits depositTransaction input events msg) (hlater : events ⊆ later) :
    Deposits depositTransaction input later msg := by
  obtain ⟨deposit, htransaction, hinput, hmsg, ⟨advice, hadvice⟩, address, haddress⟩ := h
  exact ⟨deposit, htransaction, hinput, hmsg, ⟨advice, hlater hadvice⟩, address, hlater haddress⟩

theorem wp_belonging_issue {op : Ecall} {β : Type} {c : Call Callback β}
    {post : β → Globals → List (Event (Call Callback)) → Prop}
    {events : List (Event (Call Callback))} :
    wp (belonging op) post (issue c) globals events ↔ Belongs op events c ∧
      ∀ answer, post answer globals (events ++ [.issued c, .answered c answer]) := by
  simp [belonging, tape, List.append_assoc]

/-- The call belongs to the ECALL, whatever has been answered before. -/
def Suits (op : Ecall) {β : Type} (c : Call Callback β) : Prop := ∀ events, Belongs op events c

/-- The frame rule for code that neither deposits nor looks at the answers. -/
theorem suits_belong {α : Type} {op : Ecall} {keeps : Globals → Prop} {p : Code α}
    {last : Globals} {post : α → Globals → List (Event (Call Callback)) → Prop}
    {events : List (Event (Call Callback))} (h : p.Within (Suits op) keeps) (hstate : keeps last)
    (hpost : ∀ value last events, keeps last → post value last events) :
    wp (belonging op) post p last events := by
  have hsafe : ∀ {β : Type} (current : Globals) (m : List (Event (Call Callback)))
      (c : Call Callback β), Suits op c → True → (belonging op).safe current m c :=
    fun _ m _ hc _ => hc m
  exact h.wp hsafe (fun _ _ _ _ h => h) hstate trivial fun value last events hlast _ =>
    hpost value last events hlast

/-- The calls that belong to every ECALL. -/
def Plain {β : Type} : Call Callback β → Prop
  | .auntieMsgSend msg _ => msg.msgType ≠ msgDepositAndInput
  | .callback output =>
    match output with
    | .ocallGetDeposits _ _ => False
    | _ => True
  | _ => True

theorem Plain.suits {β : Type} {c : Call Callback β} (h : Plain c) (op : Ecall) : Suits op c := by
  intro events
  cases c with
  | auntieMsgSend msg channel => exact fun htype => absurd htype h
  | callback output =>
    cases output with
    | ocallGetDeposits => exact absurd h id
    | _ => trivial
  | _ => trivial

theorem plain_of_permitted {permits : Permits Callback} (hmessages : ¬ permits.messages)
    (houtputs : ∀ context depositTransaction,
      ¬ permits.outputs (.ocallGetDeposits context depositTransaction))
    {β : Type} (c : Call Callback β) (h : c.Permitted permits) : Plain c := by
  cases c with
  | auntieMsgSend => exact absurd h hmessages
  | callback output =>
    cases output with
    | ocallGetDeposits context depositTransaction =>
      exact absurd h (houtputs context depositTransaction)
    | _ => trivial
  | _ => trivial

section Plain

theorem plain_of_internal {β : Type} (c : Call Callback β) (h : c.Internal) : Plain c := by
  cases c with
  | callback | auntieMsgSend => exact absurd h id
  | _ => trivial

/-- The setup sends the SYN, the ACK and the acknowledgement of the quotes. -/
theorem ecallConnectToOperatorImpl_plain (numPlayers : Nat) (tcrypto : Tcrypto)
    (context : Pointer) (playerId : Nat) :
    (ecallConnectToOperatorImpl numPlayers tcrypto context playerId).Within Plain
      (SetupOnly globals) := by
  have hsend : ∀ msgType payload channel,
      msgType ∈ [msgAttestationSyn, msgAttestationAck, msgPlayersQuotesOk] →
        Plain (.auntieMsgSend (.ofPayload msgType payload) channel) := by
    rintro msgType payload channel htype rfl
    exact absurd htype (by decide)
  exact ecallConnectToOperatorImpl_within (fun c hc => plain_of_internal c hc.internal) trivial
    (fun _ => trivial) trivial (fun _ => trivial) (fun _ _ => trivial) hsend numPlayers context
    playerId

theorem ecallConfirmDepositsImpl_plain :
    ecallConfirmDepositsImpl.Within Plain (AdviceOnly globals) := by
  have hother : msgConfirmDeposits ≠ msgDepositAndInput := by decide
  exact ecallConfirmDepositsImpl_within plain_of_internal (fun _ _ _ => trivial) fun _ _ => hother

end Plain

/-- The callbacks with the deposit transactions belong to their ECALL. -/
theorem ecallGetDepositsImpl_suits (build : Build) (context : Pointer) :
    (ecallGetDepositsImpl build context).Within (Suits (.ecallGetDeposits context))
      (OutputOnly globals) :=
  ecallGetDepositsImpl_within (fun _ _ _ => ⟨context, rfl⟩)
    (fun c hc => (plain_of_internal c hc).suits _) (fun _ _ => trivial) build context

section Deposit

/-- The message holds the amount modulo 2^64. -/
theorem encoded_of_mod (depositAmount : Nat) {depositTransaction input payoutAddress advice : Bytes} :
    Message.ofPayload msgDepositAndInput (DepositAndInput.encode depositAmount depositTransaction
      input payoutAddress advice) = .ofPayload msgDepositAndInput (DepositAndInput.encode
        (depositAmount % 2 ^ 64) depositTransaction input payoutAddress advice) := by
  have hamount : leBytes 8 (depositAmount % 2 ^ 64) = leBytes 8 depositAmount :=
    leBytes_mod 8 depositAmount
  rw [DepositAndInput.encode, DepositAndInput.encode, hamount]

variable {depositTransaction input : Bytes} {events : List (Event (Call Callback))}

theorem sendDeposit_belongs {depositAmount : Nat} {payoutAddress rawAdvice : Buffer}
    {advice : Pointer} (hdeposits : Deposits depositTransaction input events
      (.ofPayload msgDepositAndInput (DepositAndInput.encode depositAmount depositTransaction input
        payoutAddress.contents rawAdvice.contents))) :
    wp (belonging (.ecallDepositAndInput depositTransaction input)) (fun _ _ _ => True)
      (sendDeposit depositAmount depositTransaction input payoutAddress rawAdvice advice)
      globals events := by
  have hrelease : (releaseAdvice advice).Within
      (Suits (.ecallDepositAndInput depositTransaction input)) fun _ => True :=
    Within.bind (Within.issue fun _ => trivial) fun _ => Within.update fun _ _ => trivial
  have hfree : ∀ address, Within (Suits (.ecallDepositAndInput depositTransaction input))
      (fun _ => True) (issue (.free address) : Code Unit) :=
    fun _ => Within.issue fun _ => trivial
  rw [sendDeposit, wp_bind, wp_belonging_issue]
  refine ⟨trivial, fun msg => ?_⟩
  cases msg with
  | none =>
    refine suits_belong (Within.bind (hfree _) fun _ => ?_) trivial fun _ _ _ _ => trivial
    exact Within.bind (hfree _) fun _ => Within.bind hrelease fun _ => Within.value _
  | some msg =>
    dsimp only
    rw [wp_bind, wp_get]
    cases globals.operator with
    | none => exact wp_bind.mpr (wp_deref_none.mpr trivial)
    | some operator =>
      rw [wp_bind, wp_deref_some, wp_bind, wp_belonging_issue]
      constructor
      · exact fun _ => ⟨depositTransaction, input, rfl, hdeposits.mono (by simp)⟩
      · intro ret
        refine suits_belong (Within.bind (hfree _) fun _ => ?_) trivial fun _ _ _ _ => trivial
        refine Within.bind (hfree _) fun _ => Within.bind (hfree _) fun _ => ?_
        split
        · exact Within.bind hrelease fun _ => Within.value _
        · exact Within.value _

/-- The deposit is sent with what the Rust library has exported before. -/
theorem ecallDepositAndInputImpl_belongs (build : Build) :
    wp (belonging (.ecallDepositAndInput depositTransaction input)) (fun _ _ _ => True)
      (ecallDepositAndInputImpl build depositTransaction input) globals [] := by
  rw [ecallDepositAndInputImpl, wp_bind, wp_belonging_issue]
  refine ⟨trivial, fun tx => ?_⟩
  cases tx with
  | none => trivial
  | some tx =>
    simp only [wp_bind, wp_get]
    cases globals.depositWallet with
    | none => exact wp_deref_none.mpr trivial
    | some depositWallet =>
      rw [wp_deref_some, wp_belonging_issue]
      refine ⟨trivial, fun depositAmount => ?_⟩
      rw [wp_belonging_issue]
      refine ⟨trivial, fun _ => ?_⟩
      rw [wp_ite]
      refine ⟨fun _ => trivial, fun _ => ?_⟩
      simp only [wp_bind, wp_get]
      cases globals.payoutWallet with
      | none => exact wp_deref_none.mpr trivial
      | some payoutWallet =>
        simp only [wp_deref_some, zcashExportAddress, zcashExport, wp_bind, wp_belonging_issue]
        refine ⟨trivial, fun address => ?_⟩
        cases address with
        | none => trivial
        | some address =>
          simp only [wp_bind, wp_belonging_issue, wp_pure, wp_modify]
          refine ⟨trivial, fun payoutAddress => ⟨trivial, fun depositAdvice => ?_⟩⟩
          cases depositAdvice with
          | none =>
            rw [wp_bind, wp_belonging_issue]
            exact ⟨trivial, fun _ => trivial⟩
          | some advice =>
            simp only [zcashExportAdvice, zcashExport, wp_bind, wp_belonging_issue]
            refine ⟨trivial, fun address => ?_⟩
            cases address with
            | none =>
              exact ⟨trivial, fun _ => ⟨trivial, fun _ => trivial⟩⟩
            | some address =>
              simp only [wp_bind, wp_belonging_issue, wp_pure]
              refine ⟨trivial, fun rawAdvice => sendDeposit_belongs ?_⟩
              exact ⟨⟨depositAmount % 2 ^ 64, depositTransaction, input, payoutAddress, rawAdvice,
                Nat.mod_lt _ (by decide)⟩, rfl, rfl, encoded_of_mod depositAmount,
                ⟨advice, by simp⟩, payoutWallet.address, by simp⟩

end Deposit

theorem handle_belongs {dep : Deployment} (op : Ecall) :
    wp (belonging op) (fun _ _ _ => True) (handle dep op) globals [] := by
  cases op with
  | ecallConnectToOperator context playerId =>
    exact suits_belong ((ecallConnectToOperatorImpl_plain _ _ context playerId).mono
      fun _ hc => hc.suits _) ⟨_, _, rfl⟩ fun _ _ _ _ => trivial
  | ecallInitialize context =>
    simp only [handle, ecallInitialize, setState, wp_bind, wp_get, wp_ite, wp_pure, wp_modify]
    refine ⟨fun _ => trivial, fun _ => ?_⟩
    refine suits_belong ((ecallInitializeImpl_within context).mono fun c hc => ?_) ⟨_, _, rfl⟩
      fun _ _ _ _ => ⟨fun _ => trivial, fun _ => trivial⟩
    exact (plain_of_permitted (by simp) (by simp) c hc).suits _
  | ecallDepositAndInput depositTransaction input =>
    simp only [handle, ecallDepositAndInput, setState, wp_bind, wp_get, wp_ite, wp_pure, wp_modify]
    exact ⟨fun _ => trivial, fun _ => ecallDepositAndInputImpl_belongs dep.build⟩
  | ecallGetDeposits context =>
    simp only [handle, ecallGetDeposits, setState, wp_bind, wp_get, wp_ite, wp_pure, wp_modify]
    refine ⟨fun _ => trivial, fun _ => ?_⟩
    exact suits_belong (ecallGetDepositsImpl_suits dep.build context) ⟨_, _, _, _, rfl⟩
      fun _ _ _ _ => trivial
  | ecallConfirmDeposits =>
    simp only [handle, ecallConfirmDeposits, setState, wp_bind, wp_get, wp_ite, wp_pure, wp_modify]
    refine ⟨fun _ => trivial, fun _ => ?_⟩
    exact suits_belong (ecallConfirmDepositsImpl_plain.mono fun _ hc => hc.suits _) ⟨_, rfl⟩
      fun _ _ _ _ => trivial
  | ecallSettle context blocks =>
    simp only [handle, ecallSettle, setState, wp_bind, wp_get, wp_ite, wp_pure, wp_modify]
    refine ⟨fun _ => trivial, fun _ => ?_⟩
    refine suits_belong ((ecallSettleImpl_within context blocks).mono fun c hc => ?_) rfl
      fun _ _ _ _ => ⟨fun _ => trivial, fun _ => trivial⟩
    exact (plain_of_permitted (by simp) (by simp) c hc).suits _
  | ecallRefund context blocks =>
    simp only [handle, ecallRefund, setState, wp_bind, wp_get, wp_ite, wp_pure, wp_modify]
    refine ⟨fun _ => trivial, fun _ => ?_⟩
    refine suits_belong ((ecallRefundImpl_within context blocks).mono fun c hc => ?_) rfl
      fun _ _ _ _ => ⟨fun _ => trivial, fun _ => trivial⟩
    exact (plain_of_permitted (by simp) (by simp) c hc).suits _

end Calls

section Steps
variable {dep : Deployment} {step : Step (enclave dep)}

/-- The message of a deposit was made in the ECALL that got the deposit. -/
theorem deposits_of_sent (valid : step.Valid) {msg : Message} {channel : ChannelRef}
    (hsent : (msg, channel) ∈ sentIn step.events) (htype : msg.msgType = msgDepositAndInput) :
    ∃ depositTransaction input, step.op = Ecall.ecallDepositAndInput depositTransaction input ∧
      Deposits depositTransaction input step.events msg := by
  obtain ⟨earlier, later, hsplit⟩ := List.append_of_mem (mem_sentIn.mp hsent)
  have haccepts := Exec.accepts valid (handle_belongs step.op)
  rw [hsplit] at haccepts ⊢
  have hfold : earlier.foldl (belonging step.op).observe [] = earlier :=
    foldl_tape (σ := Globals) [] earlier
  obtain ⟨_, hbelongs⟩ := haccepts.issued
  rw [hfold] at hbelongs
  obtain ⟨depositTransaction, input, hop, hdeposits⟩ := hbelongs htype
  exact ⟨depositTransaction, input, hop, hdeposits.mono (List.subset_append_left _ _)⟩

/-- The call of `ecall_get_deposits` that `entry.c` lets through. -/
def Shows (step : Step (enclave dep)) : Prop :=
  step.before.state = .deposited ∧ ∃ context, step.op = Ecall.ecallGetDeposits context

theorem shownIn_eq_nil (valid : step.Valid) (h : ¬ Shows step) : shownIn step.events = [] := by
  apply List.eq_nil_iff_forall_not_mem.mpr
  intro depositTransaction hshown
  obtain ⟨event, hevent, hshown⟩ := List.mem_flatMap.mp hshown
  have hcallback : ∃ context, event = .issued (.callback (.ocallGetDeposits context
      depositTransaction)) := by
    cases event with
    | answered c answer => cases hshown
    | issued c =>
      cases c with
      | callback output =>
        cases output with
        | ocallGetDeposits context other =>
          cases List.mem_singleton.mp hshown
          exact ⟨context, rfl⟩
        | _ => cases hshown
      | _ => cases hshown
  obtain ⟨context, rfl⟩ := hcallback
  obtain ⟨_, _, hbelongs⟩ := Exec.issued_safe valid (handle_belongs step.op) hevent
  obtain ⟨context', hop⟩ := hbelongs
  obtain ⟨before, op, events, last, result⟩ := step
  cases hop
  have hstate : before.state ≠ .deposited := fun hstate => h ⟨hstate, context', rfl⟩
  have hnone : events = [] := OneSignature.ecallGetDeposits_refused hstate valid
  rw [hnone] at hevent
  cases hevent

/-- What is kept of a clear-contract message that arrived from the operator, all of whose deposit
transactions have been shown. -/
structure Keeps (numPlayers : Nat) (get : Step (enclave dep)) (sighash : Blocks.Digest)
    (shown : List Bytes) (operator : Operator) (msg : ReceivedMessage) : Prop where
  connected : get.before.operator = some operator
  arrived : .answered (.auntieMsgReceive operator.channel) (some msg) ∈ get.events
  msgType : msg.msgType = msgClearContract
  settlementSighash : sighash = ClearContract.settlementSighash msg
  shown : shown = (List.range numPlayers).map (ClearContract.depositTransaction numPlayers msg) ++
    [ClearContract.lastDepositTransaction numPlayers msg]

theorem keeps_of_returned (valid : step.Valid) (hshows : Shows step)
    (hret : step.result = some (0 : Int32)) : ∃ operator msg, Keeps dep.build.numPlayers step
      step.after.settlementSighash (shownIn step.events) operator msg := by
  obtain ⟨before, op, events, last, result⟩ := step
  obtain ⟨hstate, context, hop⟩ := hshows
  cases hop
  cases hret
  have hspec : wp tape (fun ret last events => ret = 0 → ∃ operator msg,
        before.operator = some operator ∧
        ClearContractDecoding.Took dep.build.numPlayers operator.channel msg last events)
      (ecallGetDeposits dep context) before [] := by
    simp only [ecallGetDeposits, setState, wp_bind, wp_get, wp_ite, wp_pure, wp_modify]
    refine ⟨fun h => absurd hstate h, fun _ => ?_⟩
    refine wp_mono ?_ (ClearContractDecoding.ecallGetDepositsImpl_took dep.build context)
    intro ret last events htook hzero
    obtain ⟨operator, msg, hoperator, htook⟩ := htook hzero
    exact ⟨operator, msg, hoperator, { htook with settlementSighash := htook.settlementSighash }⟩
  obtain ⟨operator, msg, hoperator, htook⟩ := Exec.taped valid hspec rfl
  refine ⟨operator, msg, hoperator, ?_, htook.msgType, htook.settlementSighash, htook.shown⟩
  rw [← mem_arrivedIn, htook.arrived]
  exact List.mem_singleton_self _

end Steps

section Runs
variable {dep : Deployment} {steps : List (Step (enclave dep))}

/-- Nothing is shown before the deposits have been fetched, and all of them afterwards. -/
structure Inv (steps : List (Step (enclave dep))) (globals : Globals) : Prop where
  early : OneSignature.Early globals.state → shownIn (eventsOf steps) = []
  kept : globals.state = .gotDeposits → ∃ get ∈ steps, ∃ operator msg,
    Keeps dep.build.numPlayers get globals.settlementSighash (shownIn (eventsOf steps)) operator msg

theorem shownIn_eventsOf_append (step : Step (enclave dep)) :
    shownIn (eventsOf (steps ++ [step])) = shownIn (eventsOf steps) ++ shownIn step.events := by
  rw [eventsOf, List.flatMap_append, shownIn_append, List.flatMap_singleton]
  rfl

theorem step_inv {step : Step (enclave dep)} (h : Inv steps step.before) (valid : step.Valid)
    (finished : step.result.isSome) : Inv (steps ++ [step]) step.after := by
  obtain ⟨ret, hret⟩ := Option.isSome_iff_exists.mp finished
  have hmoved := OneSignature.step_moved valid hret
  constructor
  · intro hearly
    rw [hmoved.state] at hearly
    obtain ⟨hbefore, hnot⟩ := hearly.of_next
    rw [shownIn_eventsOf_append, h.early hbefore, shownIn_eq_nil valid hnot]
    rfl
  · intro hgot
    rw [hmoved.state] at hgot
    rcases OneSignature.gotDeposits_of_next hgot with hbefore | ⟨hbefore, hzero, context, hop⟩
    · obtain ⟨get, hget, operator, msg, hkeeps⟩ := h.kept hbefore
      have hother : step.before.state ≠ .deposited := by simp [hbefore]
      have hquiet : ¬ Shows step := fun hshows => hother hshows.1
      have hsighash : step.after.settlementSighash = step.before.settlementSighash := by
        rcases hmoved.settlement with ⟨-, hstate⟩ | ⟨hsighash, -⟩
        · exact absurd hstate hother
        · exact hsighash
      refine ⟨get, List.mem_append_left _ hget, operator, msg, ?_⟩
      rwa [shownIn_eventsOf_append, shownIn_eq_nil valid hquiet, List.append_nil, hsighash]
    · rw [hzero] at hret
      obtain ⟨operator, msg, hkeeps⟩ := keeps_of_returned valid ⟨hbefore, context, hop⟩ hret
      have hearly : OneSignature.Early step.before.state := by
        rw [hbefore]
        trivial
      refine ⟨step, by simp, operator, msg, ?_⟩
      rwa [shownIn_eventsOf_append, h.early hearly, List.nil_append]

theorem inv_initial : Inv ([] : List (Step (enclave dep))) initial where
  early _ := rfl
  kept h := absurd h (by simp [initial])

/-- What is signed is the hash of the message whose deposit transactions the enclave has shown
before, and nothing else has been shown. -/
theorem signed_informed {last : Globals} (trace : Trace (enclave dep) initial steps last)
    {earlier later : List (Step (enclave dep))} {step : Step (enclave dep)}
    (hsplit : steps = earlier ++ step :: later) {key advice : Pointer} {sighash : Blocks.Digest}
    (hsigns : .issued (.zcashSignTransaction key advice sighash) ∈ step.events) :
    step.op = .ecallConfirmDeposits ∧ shownIn step.events = [] ∧
      ∃ get ∈ earlier, ∃ operator msg,
        Keeps dep.build.numPlayers get sighash (shownIn (eventsOf earlier)) operator msg := by
  have hthroughout : Throughout
      (fun earlier step => Inv earlier step.before ∧ step.Valid ∧ True) steps :=
    trace.throughout (fun _ _ _ _ => trivial) inv_initial
      fun _ _ hinv valid finished _ => step_inv hinv valid finished
  obtain ⟨hinv, valid, -⟩ := hthroughout earlier step later hsplit
  obtain ⟨hop, hstate, -, rfl⟩ := OneSignature.authorized_of_issued valid hsigns
  refine ⟨hop, shownIn_eq_nil valid ?_, hinv.kept hstate⟩
  rintro ⟨hdeposited, -⟩
  cases hstate.symm.trans hdeposited

end Runs

end Auntie.Guarantees.InformedSignature
