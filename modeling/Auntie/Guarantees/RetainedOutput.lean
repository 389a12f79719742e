import Auntie.Guarantees.InformedSignature
import Auntie.Interaction.Moments

/-!
# The output a player keeps

The functionality output waits in the enclave from `ecall_get_deposits` until the settlement is
on the chain. Nothing replaces it in between: the output a player releases, its length and the
transaction it asks the chain for come from one message that its operator sent.
-/

namespace Auntie.Guarantees.RetainedOutput
open Auntie.Source Auntie.Source.Player Auntie.Interaction
open OneSignature (Early nextState)
open InformedSignature (Shows)

section Frame
variable {dep : Deployment} {globals : Globals}

/-- The wallets. -/
def WalletsKept (before last : Globals) : Prop :=
  last.depositWallet = before.depositWallet ∧ last.payoutWallet = before.payoutWallet

/-- What `ecall_get_deposits` stores and `ecall_settle` reads. -/
def OutputKept (before last : Globals) : Prop :=
  last.functionalityOutput = before.functionalityOutput ∧
    last.functionalityOutputLength = before.functionalityOutputLength ∧
    last.settlementTxid = before.settlementTxid

/-- Only one ECALL touches the wallets, and only one the output. -/
structure Touches (op : Ecall) (before last : Globals) : Prop where
  wallets : (∀ context, op ≠ .ecallInitialize context) → WalletsKept before last
  output : (∀ context, op ≠ .ecallGetDeposits context) → OutputKept before last

theorem Touches.refl {op : Ecall} (globals : Globals) : Touches op globals globals :=
  ⟨fun _ => ⟨rfl, rfl⟩, fun _ => ⟨rfl, rfl, rfl⟩⟩

theorem Touches.trans {op : Ecall} (first second third : Globals) (h : Touches op first second)
    (h' : Touches op second third) : Touches op first third := by
  constructor
  · intro hother
    obtain ⟨hdeposit, hpayout⟩ := h.wallets hother
    obtain ⟨hdeposit', hpayout'⟩ := h'.wallets hother
    exact ⟨hdeposit'.trans hdeposit, hpayout'.trans hpayout⟩
  · intro hother
    obtain ⟨houtput, hlength, htxid⟩ := h.output hother
    obtain ⟨houtput', hlength', htxid'⟩ := h'.output hother
    exact ⟨houtput'.trans houtput, hlength'.trans hlength, htxid'.trans htxid⟩

theorem advice_touches {op : Ecall} {before : Globals} (first second : Globals)
    (h : AdviceOnly before first) (h' : AdviceOnly before second) : Touches op first second := by
  obtain ⟨_, rfl⟩ := h
  obtain ⟨_, rfl⟩ := h'
  exact ⟨fun _ => ⟨rfl, rfl⟩, fun _ => ⟨rfl, rfl, rfl⟩⟩

theorem same_touches {op : Ecall} {before : Globals} (first second : Globals) (h : before = first)
    (h' : before = second) : Touches op first second := by
  rw [← h, ← h']
  exact Touches.refl before

theorem setState_touches {op : Ecall} (state : State) (ret : Int32) :
    (do setState state; return ret : Code Int32).Moves (Touches op) globals :=
  Program.Moves.bind (Program.Moves.update ⟨fun _ => ⟨rfl, rfl⟩, fun _ => ⟨rfl, rfl, rfl⟩⟩)
    fun _ _ => Program.Moves.value _

theorem handle_touches (op : Ecall) (globals : Globals) :
    (handle dep op).Moves (Touches op) globals := by
  cases op with
  | ecallConnectToOperator context playerId =>
    refine Program.Moves.of_within (ecallConnectToOperatorImpl_permitted _ context playerId)
      ⟨_, _, rfl⟩ fun first second hfirst hsecond => ?_
    obtain ⟨_, _, rfl⟩ := hfirst
    obtain ⟨_, _, rfl⟩ := hsecond
    exact ⟨fun _ => ⟨rfl, rfl⟩, fun _ => ⟨rfl, rfl, rfl⟩⟩
  | ecallInitialize context =>
    apply Program.Moves.get_bind
    split
    · exact Program.Moves.value _
    · refine Program.Moves.bind (.of_within (ecallInitializeImpl_within context) ⟨_, _, rfl⟩ ?_) ?_
      · intro first second hfirst hsecond
        obtain ⟨_, _, rfl⟩ := hfirst
        obtain ⟨_, _, rfl⟩ := hsecond
        exact ⟨fun hother => absurd rfl (hother context), fun _ => ⟨rfl, rfl, rfl⟩⟩
      · intro ret last
        split
        · exact setState_touches _ ret
        · exact Program.Moves.value _
  | ecallDepositAndInput depositTransaction input =>
    apply Program.Moves.get_bind
    split
    · exact Program.Moves.value _
    · refine Program.Moves.bind (.of_within (ecallDepositAndInputImpl_within dep.build
        depositTransaction input) ⟨_, rfl⟩ advice_touches) fun ret last => ?_
      exact setState_touches _ ret
  | ecallGetDeposits context =>
    apply Program.Moves.get_bind
    split
    · exact Program.Moves.value _
    · refine Program.Moves.bind (.of_within (ecallGetDepositsImpl_permitted dep.build context)
        ⟨_, _, _, _, rfl⟩ ?_) fun ret last => setState_touches _ ret
      intro first second hfirst hsecond
      obtain ⟨_, _, _, _, rfl⟩ := hfirst
      obtain ⟨_, _, _, _, rfl⟩ := hsecond
      exact ⟨fun _ => ⟨rfl, rfl⟩, fun hother => absurd rfl (hother context)⟩
  | ecallConfirmDeposits =>
    apply Program.Moves.get_bind
    split
    · exact Program.Moves.value _
    · refine Program.Moves.bind (.of_within ecallConfirmDepositsImpl_permitted ⟨_, rfl⟩ advice_touches)
        fun ret last => ?_
      exact setState_touches _ ret
  | ecallSettle context blocks =>
    apply Program.Moves.get_bind
    dsimp only
    split
    · exact Program.Moves.value _
    · refine Program.Moves.bind (.of_within (ecallSettleImpl_within context blocks) rfl
        same_touches) fun ret last => ?_
      split
      · exact setState_touches _ ret
      · exact Program.Moves.value _
  | ecallRefund context blocks =>
    apply Program.Moves.get_bind
    split
    · exact Program.Moves.value _
    · refine Program.Moves.bind (.of_within (ecallRefundImpl_within context blocks) rfl
        same_touches) fun ret last => ?_
      split
      · exact setState_touches _ ret
      · exact Program.Moves.value _

theorem step_touches {step : Step (enclave dep)} (valid : step.Valid) :
    Touches step.op step.before step.after :=
  (handle_touches step.op step.before).reaches Touches.refl Touches.trans valid

theorem refused_moves (context : Pointer) (hstate : globals.state ≠ .deposited) :
    (ecallGetDeposits dep context).Moves Eq globals := by
  apply Program.Moves.get_bind
  rw [if_pos hstate]
  exact Program.Moves.value _

/-- A step that does not fetch the deposits leaves the output as it is. -/
theorem output_kept {step : Step (enclave dep)} (valid : step.Valid) (hquiet : ¬ Shows step) :
    OutputKept step.before step.after := by
  by_cases hget : ∃ context, step.op = Ecall.ecallGetDeposits context
  · obtain ⟨before, op, events, last, result⟩ := step
    obtain ⟨context, hop⟩ := hget
    cases hop
    have hstate : before.state ≠ .deposited := fun hstate => hquiet ⟨hstate, context, rfl⟩
    have hsame : before = last :=
      (refused_moves context hstate).reaches Eq.refl (fun _ _ _ => Eq.trans) valid
    rw [← hsame]
    exact ⟨rfl, rfl, rfl⟩
  · exact (step_touches valid).output fun context hop => hget ⟨context, hop⟩

end Frame

section GetDeposits
variable {dep : Deployment} {globals : Globals}

/-- A call that fails leaves no output. -/
theorem ecallGetDepositsImpl_drops (build : Build) (context : Pointer)
    (hnone : globals.functionalityOutput = none) :
    wp tape (fun ret last _ => ret ≠ 0 → last.functionalityOutput = none)
      (ecallGetDepositsImpl build context) globals [] := by
  simp only [ecallGetDepositsImpl, wp_bind, wp_get]
  cases globals.operator with
  | none => exact wp_deref_none.mpr trivial
  | some operator =>
    rw [wp_deref_some, wp_tape_issue]
    intro msg
    cases msg with
    | none => exact fun _ => hnone
    | some msg =>
      simp only [wp_bind, wp_tape_issue, wp_ite, wp_pure, wp_modify]
      refine ⟨fun _ _ _ => hnone, fun _ address => ?_⟩
      cases address with
      | none =>
        simp only [wp_bind, wp_modify, wp_tape_issue, wp_pure]
        exact fun _ _ => trivial
      | some address =>
        simp only [outputAllDeposits, dropOutput, wp_bind, wp_modify]
        refine wp_tape_from (ClearContractDecoding.outputDeposits_shows build context msg _) ?_
        intro error last events _
        cases error with
        | some error =>
          simp only [wp_bind, wp_tape_issue, wp_modify, wp_pure]
          exact fun _ _ _ => trivial
        | none =>
          simp only [wp_bind, wp_tape_issue, wp_ite, wp_modify, wp_pure]
          exact fun _ _ => ⟨fun _ _ h => absurd rfl h, fun _ h => absurd rfl h⟩

/-- Where the output, its length and the transaction come from. -/
structure Retains (numPlayers : Nat) (get : Step (enclave dep)) (globals : Globals)
    (output : Buffer) (operator : Operator) (msg : ReceivedMessage) : Prop where
  connected : get.before.operator = some operator
  arrived : .answered (.auntieMsgReceive operator.channel) (some msg) ∈ get.events
  msgType : msg.msgType = msgClearContract
  settlementTxid : globals.settlementTxid = ClearContract.settlementTxid msg
  output : output.contents = ClearContract.output numPlayers msg
  outputLength : globals.functionalityOutputLength = ClearContract.outputLength msg

theorem Retains.of_kept {get : Step (enclave dep)} {before last : Globals} {output : Buffer}
    {operator : Operator} {msg : ReceivedMessage}
    (h : Retains dep.build.numPlayers get before output operator msg) (hkept : OutputKept before last) :
    Retains dep.build.numPlayers get last output operator msg where
  connected := h.connected
  arrived := h.arrived
  msgType := h.msgType
  settlementTxid := hkept.2.2.trans h.settlementTxid
  output := h.output
  outputLength := hkept.2.1.trans h.outputLength

/-- An output that is there after the call is that of the message the call has taken. -/
theorem retains_of_shows {step : Step (enclave dep)} (valid : step.Valid)
    (finished : step.result.isSome) (hshows : Shows step)
    (hnone : step.before.functionalityOutput = none) {output : Buffer}
    (houtput : step.after.functionalityOutput = some output) :
    ∃ operator msg, Retains dep.build.numPlayers step step.after output operator msg := by
  obtain ⟨before, op, events, last, result⟩ := step
  obtain ⟨hstate, context, hop⟩ := hshows
  cases hop
  obtain ⟨ret, rfl⟩ := Option.isSome_iff_exists.mp finished
  let ret : Int32 := ret
  have hdrops : wp tape (fun ret last _ => ret ≠ 0 → last.functionalityOutput = none)
      (ecallGetDeposits dep context) before [] := by
    simp only [ecallGetDeposits, setState, wp_bind, wp_get, wp_ite, wp_pure, wp_modify]
    exact ⟨fun h => absurd hstate h,
      fun _ => ecallGetDepositsImpl_drops dep.build context hnone⟩
  have htakes : wp tape (fun ret last events => ret = 0 → ∃ operator msg,
        before.operator = some operator ∧
        ClearContractDecoding.Took dep.build.numPlayers operator.channel msg last events)
      (ecallGetDeposits dep context) before [] := by
    simp only [ecallGetDeposits, setState, wp_bind, wp_get, wp_ite, wp_pure, wp_modify]
    refine ⟨fun h => absurd hstate h, fun _ => ?_⟩
    refine wp_mono ?_ (ClearContractDecoding.ecallGetDepositsImpl_took dep.build context)
    intro ret last events htook hzero
    obtain ⟨operator, msg, hoperator, htook⟩ := htook hzero
    exact ⟨operator, msg, hoperator, ⟨htook.msgType, htook.arrived, htook.settlementSighash,
      htook.settlementTxid, htook.outputLength, htook.output, htook.shown⟩⟩
  have hzero : ret = 0 := by
    by_contra hret
    have hdropped := Exec.taped valid hdrops hret
    cases hdropped.symm.trans houtput
  obtain ⟨operator, msg, hoperator, htook⟩ := Exec.taped valid htakes hzero
  refine ⟨operator, msg, hoperator, ?_, htook.msgType, htook.settlementTxid,
    htook.output output houtput, htook.outputLength⟩
  rw [← mem_arrivedIn, htook.arrived]
  exact List.mem_singleton_self _

end GetDeposits

section Runs
variable {dep : Deployment} {steps : List (Step (enclave dep))}

/-- There is no output before the deposits have been fetched, and then it is that of a message. -/
structure Inv (steps : List (Step (enclave dep))) (globals : Globals) : Prop where
  early : Early globals.state → globals.functionalityOutput = none
  retained : ∀ output, globals.functionalityOutput = some output → ∃ get ∈ steps, ∃ operator msg,
    Retains dep.build.numPlayers get globals output operator msg

theorem step_inv {step : Step (enclave dep)} (h : Inv steps step.before) (valid : step.Valid)
    (finished : step.result.isSome) : Inv (steps ++ [step]) step.after := by
  obtain ⟨ret, hret⟩ := Option.isSome_iff_exists.mp finished
  have hmoved := OneSignature.step_moved valid hret
  by_cases hshows : Shows step
  · have hearly : Early step.before.state := by
      rw [hshows.1]
      trivial
    constructor
    · intro hlate
      rw [hmoved.state] at hlate
      exact absurd hshows hlate.of_next.2
    · intro output houtput
      obtain ⟨operator, msg, hretains⟩ :=
        retains_of_shows valid finished hshows (h.early hearly) houtput
      exact ⟨step, by simp, operator, msg, hretains⟩
  · have hkept := output_kept valid hshows
    constructor
    · intro hearly
      rw [hmoved.state] at hearly
      exact hkept.1.trans (h.early hearly.of_next.1)
    · intro output houtput
      obtain ⟨get, hget, operator, msg, hretains⟩ := h.retained output (hkept.1.symm.trans houtput)
      exact ⟨get, List.mem_append_left _ hget, operator, msg, hretains.of_kept hkept⟩

theorem inv_initial : Inv ([] : List (Step (enclave dep))) initial where
  early _ := rfl
  retained _ houtput := by simp [initial] at houtput

/-- At the start of every step the output is that of a message that has been received before. -/
theorem retained_before {last : Globals} (trace : Trace (enclave dep) initial steps last)
    {earlier later : List (Step (enclave dep))} {step : Step (enclave dep)}
    (hsplit : steps = earlier ++ step :: later) {output : Buffer}
    (houtput : step.before.functionalityOutput = some output) :
    ∃ get ∈ earlier, ∃ operator msg,
      Retains dep.build.numPlayers get step.before output operator msg := by
  have hthroughout : Throughout
      (fun earlier step => Inv earlier step.before ∧ step.Valid ∧ True) steps :=
    trace.throughout (fun _ _ _ _ => trivial) inv_initial
      fun _ _ hinv valid finished _ => step_inv hinv valid finished
  obtain ⟨hinv, -, -⟩ := hthroughout earlier step later hsplit
  exact hinv.retained output houtput

end Runs

end Auntie.Guarantees.RetainedOutput
