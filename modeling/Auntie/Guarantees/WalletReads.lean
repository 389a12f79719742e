import Auntie.Guarantees.PlayerSetup
import Auntie.Source.Operator.Entry

/-!
# Wallets that are read

The ECALLs of the contract need a state that only an initialized enclave reaches, and a settlement
too. `ecall_refund` is granted in every state but the last: before `ecall_initialize` has
succeeded it reads the deposit wallet that is still `NULL`, provided that its chain passes.

Reading through `NULL` is the call `fault`, which has no answer: a step that does so stands there.
-/

namespace Auntie.Guarantees.WalletReads
open Auntie.Source Auntie.Interaction

/-- The step stands at a read through `NULL`, or a panic. -/
def Faults {Callback σ : Type} {comp : Component (Call Callback) σ} (step : Step comp) : Prop :=
  step.result = none ∧ ∃ before, step.events = before ++ [.issued .fault]

/-- The monitor of the states in which the enclave faults. -/
def guarding {Callback σ : Type} (held : σ → Prop) : Monitor (Call Callback) σ Unit where
  safe current _ c :=
    match c with
    | .fault => held current
    | _ => True

section Steps
variable {Callback σ : Type} {comp : Component (Call Callback) σ} {held : σ → Prop}

/-- A guarded step that faults does so in a state of the kind. -/
theorem held_of_faults {step : Step comp} (valid : step.Valid) (hfaults : Faults step)
    {post : comp.Ret → σ → Unit → Prop}
    (h : wp (guarding held) post (comp.handle step.op) step.before ()) : held step.after := by
  obtain ⟨hresult, before, hevents⟩ := hfaults
  have hexec : Exec (comp.handle step.op) step.before step.events step.after none := hresult ▸ valid
  obtain ⟨before', β, c, hevents', hsafe⟩ := hexec.waiting_safe h
  have hlast := (List.append_inj' (hevents.symm.trans hevents') rfl).2
  cases hlast
  exact hsafe

/-- A program that keeps a state of the kind. -/
theorem guarded {α : Type} {allowed : {β : Type} → Call Callback β → Prop} {keeps : σ → Prop}
    {p : Code Callback σ α} {post : α → σ → Unit → Prop} {state : σ}
    (h : p.Within allowed keeps) (hheld : ∀ current, keeps current → held current)
    (hstate : keeps state) (hpost : ∀ value last, keeps last → post value last ()) :
    wp (guarding held) post p state () := by
  refine h.watched ?_ hstate fun value last _ => hpost value last
  intro β current m c hcurrent
  cases c with
  | fault => exact hheld current hcurrent
  | _ => trivial

end Steps

section Player
open Player
variable {dep : Deployment} {globals : Globals}

/-- The ECALLs that read the wallets of a player. -/
def PlayerReads : Ecall → Prop
  | .ecallDepositAndInput _ _ | .ecallConfirmDeposits | .ecallSettle _ _ | .ecallRefund _ _ => True
  | _ => False

def PlayerHeld (globals : Globals) : Prop :=
  globals.depositWallet.isSome ∧ globals.payoutWallet.isSome

/-- A step that reads the wallets finds them; the state does not change where it faults. -/
def PlayerSafe (step : Step (enclave dep)) : Prop :=
  PlayerReads step.op → Faults step → PlayerHeld step.after

/-- The refund of a player that is not initialized does not pass the chain check. -/
def PlayerRefundInitialized (dep : Deployment) (globals : Globals) : Ecall → Prop
  | .ecallRefund _ blocks => globals.state = .uninitialized →
    chainError dep.build.refundDelayBlocks
      (Blocks.zcashBlocksSinceCheckpoint dep.crates dep.build blocks) ≠ none
  | _ => True

/-- What the state says about the wallets. -/
structure PlayerInv (globals : Globals) : Prop where
  absent : globals.state = .uninitialized → globals.depositWallet = none
  held : globals.state ≠ .uninitialized → PlayerHeld globals

theorem PlayerInv.of_held {state : State} (h : PlayerHeld globals) (hstate : state ≠ .uninitialized) :
    PlayerInv { globals with state := state } :=
  ⟨fun heq => absurd heq hstate, fun _ => h⟩

section Ecalls
variable (h : PlayerInv globals)
include h

theorem ecallInitialize_inv (context : Pointer) :
    wp ({} : Monitor (Call Callback) Globals Unit) (fun _ last _ => PlayerInv last)
      (ecallInitialize context) globals () := by
  simp only [ecallInitialize, setState, wp_bind, wp_get, wp_ite, wp_pure, wp_modify]
  refine ⟨fun _ => h, fun hstate => ?_⟩
  refine wp_mono ?_ ((ecallInitializeImpl_within context).wp_kept ⟨_, _, rfl⟩
    (PlayerSetup.ecallInitializeImpl_spec context))
  rintro ret _ _ ⟨⟨depositWallet, payoutWallet, rfl⟩, hheld, habsent⟩
  constructor
  · exact fun hret => ⟨(by simp), fun _ => hheld hret⟩
  · exact fun hret => ⟨fun _ => habsent hret, fun hne => absurd (not_not.mp hstate) hne⟩

theorem ecallConnectToOperator_inv (context : Pointer) (playerId : Nat) :
    wp (guarding fun _ => True) (fun _ last _ => PlayerInv last)
      (ecallConnectToOperator dep context playerId) globals () := by
  refine guarded (ecallConnectToOperatorImpl_permitted _ _ _) (fun _ _ => trivial) ⟨_, _, rfl⟩ ?_
  rintro ret _ ⟨operator, stash, rfl⟩
  exact ⟨h.absent, h.held⟩

theorem ecallDepositAndInput_inv (depositTransaction input : Bytes) :
    wp (guarding PlayerHeld) (fun _ last _ => PlayerInv last)
      (ecallDepositAndInput dep depositTransaction input) globals () := by
  simp only [ecallDepositAndInput, setState, wp_bind, wp_get, wp_ite, wp_pure, wp_modify]
  refine ⟨fun _ => h, fun hstate => ?_⟩
  have hheld : PlayerHeld globals := h.held (by simp [not_not.mp hstate])
  refine guarded (ecallDepositAndInputImpl_within _ _ _) ?_ ⟨_, rfl⟩ ?_
  · rintro _ ⟨depositAdvice, rfl⟩
    exact hheld
  · rintro ret _ ⟨depositAdvice, rfl⟩
    exact .of_held hheld (by split <;> decide)

theorem ecallGetDeposits_inv (context : Pointer) :
    wp (guarding fun _ => True) (fun _ last _ => PlayerInv last)
      (ecallGetDeposits dep context) globals () := by
  simp only [ecallGetDeposits, setState, wp_bind, wp_get, wp_ite, wp_pure, wp_modify]
  refine ⟨fun _ => h, fun hstate => ?_⟩
  have hheld : PlayerHeld globals := h.held (by simp [not_not.mp hstate])
  refine guarded (ecallGetDepositsImpl_permitted _ _) (fun _ _ => trivial) ⟨_, _, _, _, rfl⟩ ?_
  rintro ret _ ⟨_, _, _, _, rfl⟩
  exact .of_held hheld (by split <;> decide)

theorem ecallConfirmDeposits_inv :
    wp (guarding PlayerHeld) (fun _ last _ => PlayerInv last) ecallConfirmDeposits globals () := by
  simp only [ecallConfirmDeposits, setState, wp_bind, wp_get, wp_ite, wp_pure, wp_modify]
  refine ⟨fun _ => h, fun hstate => ?_⟩
  have hheld : PlayerHeld globals := h.held (by simp [not_not.mp hstate])
  refine guarded ecallConfirmDepositsImpl_permitted ?_ ⟨_, rfl⟩ ?_
  · rintro _ ⟨depositAdvice, rfl⟩
    exact hheld
  · rintro ret _ ⟨depositAdvice, rfl⟩
    exact .of_held hheld (by split <;> decide)

theorem ecallSettle_inv (context : Pointer) (blocks : Bytes) :
    wp (guarding PlayerHeld) (fun _ last _ => PlayerInv last)
      (ecallSettle dep context blocks) globals () := by
  simp only [ecallSettle, setState, wp_bind, wp_get, wp_ite, wp_pure, wp_modify]
  refine ⟨fun _ => h, fun hstate => ?_⟩
  have hheld : PlayerHeld globals := h.held fun huninitialized => hstate (by simp [huninitialized])
  refine guarded (ecallSettleImpl_within context blocks) ?_ rfl ?_
  · rintro _ rfl
    exact hheld
  · rintro ret _ rfl
    exact ⟨fun _ => .of_held hheld (by decide), fun _ => h⟩

theorem ecallRefund_inv (context : Pointer) (blocks : Bytes)
    (hinitialized : PlayerRefundInitialized dep globals (.ecallRefund context blocks)) :
    wp (guarding PlayerHeld) (fun _ last _ => PlayerInv last)
      (ecallRefund dep context blocks) globals () := by
  simp only [ecallRefund, setState, wp_bind, wp_get, wp_ite, wp_pure, wp_modify]
  refine ⟨fun _ => h, fun _ => ?_⟩
  cases hchain : chainError dep.build.refundDelayBlocks
      (Blocks.zcashBlocksSinceCheckpoint dep.crates dep.build blocks) with
  | some error =>
    rw [ecallRefundImpl_refused hchain]
    exact ⟨fun hzero => absurd hzero (chainError_ne_zero hchain), fun _ => h⟩
  | none =>
    have hheld : PlayerHeld globals := h.held fun hstate => hinitialized hstate hchain
    refine guarded (ecallRefundImpl_within context blocks) ?_ rfl ?_
    · rintro _ rfl
      exact hheld
    · rintro ret _ rfl
      exact ⟨fun _ => .of_held hheld (by decide), fun _ => h⟩

end Ecalls

/-- The refund that the chain check does not stop reads `NULL`. -/
theorem ecallRefund_null {context : Pointer} {blocks : Bytes} (hstate : globals.state = .uninitialized)
    (habsent : globals.depositWallet = none)
    (hchain : chainError dep.build.refundDelayBlocks
      (Blocks.zcashBlocksSinceCheckpoint dep.crates dep.build blocks) = none) :
    wp (stopping fun last events => events = [.issued .fault] ∧ last = globals)
      (fun _ _ _ => False) (ecallRefund dep context blocks) globals [] := by
  simp [ecallRefund, ecallRefundImpl, hstate, hchain, habsent, stopping]

theorem player_inv {step : Step (enclave dep)} (h : PlayerInv step.before) (valid : step.Valid)
    (finished : step.result.isSome) : PlayerInv step.after := by
  obtain ⟨before, op, events, last, result⟩ := step
  obtain ⟨ret, rfl⟩ := Option.isSome_iff_exists.mp finished
  cases op with
  | ecallConnectToOperator context playerId =>
    exact Exec.returned valid (ecallConnectToOperator_inv h context playerId)
  | ecallInitialize context => exact Exec.returned valid (ecallInitialize_inv h context)
  | ecallDepositAndInput depositTransaction input =>
    exact Exec.returned valid (ecallDepositAndInput_inv h depositTransaction input)
  | ecallGetDeposits context => exact Exec.returned valid (ecallGetDeposits_inv h context)
  | ecallConfirmDeposits => exact Exec.returned valid (ecallConfirmDeposits_inv h)
  | ecallSettle context blocks => exact Exec.returned valid (ecallSettle_inv h context blocks)
  | ecallRefund context blocks =>
    by_cases hinitialized : PlayerRefundInitialized dep before (.ecallRefund context blocks)
    · exact Exec.returned valid (ecallRefund_inv h context blocks hinitialized)
    · obtain ⟨hstate, hchain⟩ := Classical.not_imp.mp hinitialized
      exact (Exec.returned valid (ecallRefund_null hstate (h.absent hstate) (not_not.mp hchain))).elim

theorem player_safe_iff {step : Step (enclave dep)} (h : PlayerInv step.before) (valid : step.Valid) :
    PlayerSafe step ↔ PlayerRefundInitialized dep step.before step.op := by
  obtain ⟨before, op, events, last, result⟩ := step
  cases op with
  | ecallConnectToOperator | ecallInitialize | ecallGetDeposits =>
    exact ⟨fun _ => trivial, fun _ hreads => hreads.elim⟩
  | ecallDepositAndInput depositTransaction input =>
    exact ⟨fun _ => trivial, fun _ _ hfaults =>
      held_of_faults valid hfaults (ecallDepositAndInput_inv h depositTransaction input)⟩
  | ecallConfirmDeposits =>
    exact ⟨fun _ => trivial, fun _ _ hfaults =>
      held_of_faults valid hfaults (ecallConfirmDeposits_inv h)⟩
  | ecallSettle context blocks =>
    exact ⟨fun _ => trivial, fun _ _ hfaults =>
      held_of_faults valid hfaults (ecallSettle_inv h context blocks)⟩
  | ecallRefund context blocks =>
    constructor
    · intro hsafe hstate hchain
      have hexec : Exec (ecallRefund dep context blocks) before events last result := valid
      have hnull := hexec.stopped (ecallRefund_null hstate (h.absent hstate) hchain)
      have hresult : result = none := Option.eq_none_iff_forall_not_mem.mpr hnull.1
      obtain ⟨hevents, hlast⟩ := hnull.2 hresult
      have hheld : PlayerHeld last := hsafe trivial ⟨hresult, [], hevents⟩
      rw [hlast, PlayerHeld, h.absent hstate] at hheld
      exact absurd hheld.1 (by decide)
    · exact fun hinitialized _ hfaults =>
        held_of_faults valid hfaults (ecallRefund_inv h context blocks hinitialized)

end Player

section Operator
open Operator
variable {dep : Deployment} {globals : Globals}

/-- The ECALLs that read the wallet of the operator. -/
def OperatorReads : Ecall → Prop
  | .ecallClearContract _ _ _ _ | .ecallRefund _ _ => True
  | _ => False

def OperatorHeld (globals : Globals) : Prop := globals.depositWallet.isSome

def OperatorSafe (step : Step (enclave dep)) : Prop :=
  OperatorReads step.op → Faults step → OperatorHeld step.after

/-- The refund of an operator that is not initialized does not pass the chain check. -/
def OperatorRefundInitialized (dep : Deployment) (globals : Globals) : Ecall → Prop
  | .ecallRefund _ blocks => globals.state = .uninitialized →
    chainError dep.build.refundDelayBlocks
      (Blocks.zcashBlocksSinceCheckpoint dep.crates dep.build blocks) ≠ none
  | _ => True

structure OperatorInv (globals : Globals) : Prop where
  absent : globals.state = .uninitialized → globals.depositWallet = none
  held : globals.state ≠ .uninitialized → OperatorHeld globals

theorem OperatorInv.of_held {state : State} (h : OperatorHeld globals)
    (hstate : state ≠ .uninitialized) : OperatorInv { globals with state := state } :=
  ⟨fun heq => absurd heq hstate, fun _ => h⟩

/-- The wallet exists after a success, and does not after a failure. -/
def OperatorWalletSet (ret : Int32) (last : Globals) : Prop :=
  (ret = 0 → last.depositWallet.isSome) ∧ (ret ≠ 0 → last.depositWallet = none)

theorem OperatorWalletSet.dropped {ret : Int32} {last : Globals} (hret : ret ≠ 0)
    (h : last.depositWallet = none) : OperatorWalletSet ret last :=
  ⟨fun hzero => absurd hzero hret, fun _ => h⟩

theorem initializeImpl_wallet (context : Pointer) :
    wp ({} : Monitor (Call Callback) Globals Unit) (fun ret last _ => OperatorWalletSet ret last)
      (ecallInitializeImpl context) globals () := by
  simp only [ecallInitializeImpl, wp_bind]
  refine zcashCreateWallet_unmonitored fun depositWallet => ?_
  rw [wp_modify]
  cases depositWallet with
  | none => exact .dropped enomem_error rfl
  | some depositWallet =>
    simp only [zcashExportAddress, zcashExport, wp_bind, wp_issue]
    refine ⟨trivial, fun address => ?_⟩
    cases address with
    | none =>
      rw [wp_pure, wp_bind]
      exact zcashReleaseWallet_unmonitored (.dropped enomem_error rfl)
    | some address =>
      simp only [wp_bind, wp_issue, wp_ite, wp_pure]
      refine ⟨trivial, fun _ => ⟨trivial, fun ret => ⟨trivial, fun _ => ⟨fun hret => ?_, fun hret => ?_⟩⟩⟩⟩
      · exact zcashReleaseWallet_unmonitored (.dropped hret rfl)
      · exact ⟨fun _ => rfl, fun hne => absurd hne hret⟩

section Ecalls
variable (h : OperatorInv globals)
include h

theorem initialize_inv (context : Pointer) :
    wp ({} : Monitor (Call Callback) Globals Unit) (fun _ last _ => OperatorInv last)
      (ecallInitialize context) globals () := by
  simp only [ecallInitialize, setState, wp_bind, wp_get, wp_ite, wp_pure, wp_modify]
  refine ⟨fun _ => h, fun hstate => ?_⟩
  refine wp_mono ?_ ((ecallInitializeImpl_within context).wp_kept ⟨_, rfl⟩
    (initializeImpl_wallet context))
  rintro ret _ _ ⟨⟨depositWallet, rfl⟩, hwallet⟩
  constructor
  · exact fun hret => ⟨(by simp), fun _ => hwallet.1 hret⟩
  · exact fun hret => ⟨fun _ => hwallet.2 hret, fun hne => absurd (not_not.mp hstate) hne⟩

theorem connectToPlayer_inv (context : Pointer) :
    wp (guarding fun _ => True) (fun _ last _ => OperatorInv last)
      (ecallConnectToPlayer dep context) globals () := by
  refine guarded (ecallConnectToPlayer_permitted context) (fun _ _ => trivial) ⟨_, _, _, _, _, rfl⟩ ?_
  rintro ret _ ⟨_, _, _, _, _, rfl⟩
  exact ⟨h.absent, h.held⟩

theorem clearContract_inv (context : Pointer)
    (payoutAddress collateralTransaction merklePaths : Bytes) :
    wp (guarding OperatorHeld) (fun _ last _ => OperatorInv last)
      (ecallClearContract dep context payoutAddress collateralTransaction merklePaths) globals () := by
  simp only [ecallClearContract, setState, wp_bind, wp_get, wp_ite, wp_pure, wp_modify]
  refine ⟨fun _ => h, fun hstate => ?_⟩
  have hheld : OperatorHeld globals := h.held (by simp [not_not.mp hstate])
  refine guarded (ecallClearContractImpl_within context _ _ _) ?_ ⟨_, _, rfl⟩ ?_
  · rintro _ ⟨_, _, rfl⟩
    exact hheld
  · rintro ret _ ⟨_, _, rfl⟩
    exact .of_held hheld (by split <;> decide)

theorem finalize_inv (context : Pointer) :
    wp (guarding fun _ => True) (fun _ last _ => OperatorInv last)
      (ecallFinalize dep context) globals () := by
  simp only [ecallFinalize, setState, wp_bind, wp_get, wp_ite, wp_pure, wp_modify]
  refine ⟨fun _ => h, fun hstate => ?_⟩
  have hheld : OperatorHeld globals := h.held (by simp [not_not.mp hstate])
  refine guarded (ecallFinalizeImpl_within context) (fun _ _ => trivial) ⟨_, _, rfl⟩ ?_
  rintro ret _ ⟨_, _, rfl⟩
  exact .of_held hheld (by split <;> decide)

theorem refund_inv (context : Pointer) (blocks : Bytes)
    (hinitialized : OperatorRefundInitialized dep globals (.ecallRefund context blocks)) :
    wp (guarding OperatorHeld) (fun _ last _ => OperatorInv last)
      (ecallRefund dep context blocks) globals () := by
  simp only [ecallRefund, setState, wp_bind, wp_get, wp_ite, wp_pure, wp_modify]
  refine ⟨fun _ => h, fun _ => ?_⟩
  cases hchain : chainError dep.build.refundDelayBlocks
      (Blocks.zcashBlocksSinceCheckpoint dep.crates dep.build blocks) with
  | some error =>
    rw [ecallRefundImpl_refused hchain]
    exact ⟨fun hzero => absurd hzero (chainError_ne_zero hchain), fun _ => h⟩
  | none =>
    have hheld : OperatorHeld globals := h.held fun hstate => hinitialized hstate hchain
    refine guarded (ecallRefundImpl_sends dep context blocks) ?_ rfl ?_
    · rintro _ rfl
      exact hheld
    · rintro ret _ rfl
      exact ⟨fun _ => .of_held hheld (by decide), fun _ => h⟩

end Ecalls

theorem refund_null {context : Pointer} {blocks : Bytes} (hstate : globals.state = .uninitialized)
    (habsent : globals.depositWallet = none)
    (hchain : chainError dep.build.refundDelayBlocks
      (Blocks.zcashBlocksSinceCheckpoint dep.crates dep.build blocks) = none) :
    wp (stopping fun last events => events = [.issued .fault] ∧ last = globals)
      (fun _ _ _ => False) (ecallRefund dep context blocks) globals [] := by
  simp [ecallRefund, ecallRefundImpl, hstate, hchain, habsent, stopping]

theorem operator_inv {step : Step (enclave dep)} (h : OperatorInv step.before) (valid : step.Valid)
    (finished : step.result.isSome) : OperatorInv step.after := by
  obtain ⟨before, op, events, last, result⟩ := step
  obtain ⟨ret, rfl⟩ := Option.isSome_iff_exists.mp finished
  cases op with
  | ecallConnectToPlayer context => exact Exec.returned valid (connectToPlayer_inv h context)
  | ecallInitialize context => exact Exec.returned valid (initialize_inv h context)
  | ecallClearContract context payoutAddress collateralTransaction merklePaths =>
    exact Exec.returned valid (clearContract_inv h context _ _ _)
  | ecallFinalize context => exact Exec.returned valid (finalize_inv h context)
  | ecallRefund context blocks =>
    by_cases hinitialized : OperatorRefundInitialized dep before (.ecallRefund context blocks)
    · exact Exec.returned valid (refund_inv h context blocks hinitialized)
    · obtain ⟨hstate, hchain⟩ := Classical.not_imp.mp hinitialized
      exact (Exec.returned valid (refund_null hstate (h.absent hstate) (not_not.mp hchain))).elim

theorem operator_safe_iff {step : Step (enclave dep)} (h : OperatorInv step.before)
    (valid : step.Valid) : OperatorSafe step ↔ OperatorRefundInitialized dep step.before step.op := by
  obtain ⟨before, op, events, last, result⟩ := step
  cases op with
  | ecallConnectToPlayer | ecallInitialize | ecallFinalize =>
    exact ⟨fun _ => trivial, fun _ hreads => hreads.elim⟩
  | ecallClearContract context payoutAddress collateralTransaction merklePaths =>
    exact ⟨fun _ => trivial, fun _ _ hfaults =>
      held_of_faults valid hfaults (clearContract_inv h context _ _ _)⟩
  | ecallRefund context blocks =>
    constructor
    · intro hsafe hstate hchain
      have hexec : Exec (ecallRefund dep context blocks) before events last result := valid
      have hnull := hexec.stopped (refund_null hstate (h.absent hstate) hchain)
      have hresult : result = none := Option.eq_none_iff_forall_not_mem.mpr hnull.1
      obtain ⟨hevents, hlast⟩ := hnull.2 hresult
      have hheld : OperatorHeld last := hsafe trivial ⟨hresult, [], hevents⟩
      rw [hlast, OperatorHeld, h.absent hstate] at hheld
      exact absurd hheld (by decide)
    · exact fun hinitialized _ hfaults =>
        held_of_faults valid hfaults (refund_inv h context blocks hinitialized)

end Operator

section Runs
variable {dep : Deployment}

/-- On either enclave no ECALL reads a wallet that is `NULL` exactly when no refund passes the
chain check before the enclave is initialized. -/
theorem wallets_read_iff {steps : List (Step (Player.enclave dep))} {state : Player.Globals}
    {operatorSteps : List (Step (Operator.enclave dep))} {operatorState : Operator.Globals}
    (trace : Trace (Player.enclave dep) Player.initial steps state)
    (operatorTrace : Trace (Operator.enclave dep) (Operator.initial dep) operatorSteps
      operatorState) :
    ((∀ step ∈ steps, PlayerSafe step) ↔
      ∀ step ∈ steps, PlayerRefundInitialized dep step.before step.op) ∧
    ((∀ step ∈ operatorSteps, OperatorSafe step) ↔
      ∀ step ∈ operatorSteps, OperatorRefundInitialized dep step.before step.op) := by
  have hplayer : PlayerInv Player.initial := ⟨fun _ => rfl, fun h => absurd rfl h⟩
  have hoperator : OperatorInv (Operator.initial dep) := ⟨fun _ => rfl, fun h => absurd rfl h⟩
  have hsteps := trace.steps_inv hplayer fun _ => player_inv
  have hoperatorSteps := operatorTrace.steps_inv hoperator fun _ => operator_inv
  constructor
  · exact forall₂_congr fun step hstep => player_safe_iff (hsteps step hstep).1 (hsteps step hstep).2
  · exact forall₂_congr fun step hstep =>
      operator_safe_iff (hoperatorSteps step hstep).1 (hoperatorSteps step hstep).2

end Runs

section Examples
open Blocks (zeroHeaders)

theorem wallets_read_contract :
    ((∀ step ∈ Player.contractSteps, PlayerSafe step) ↔
      ∀ step ∈ Player.contractSteps, PlayerRefundInitialized zeroDeployment step.before step.op) ∧
    ((∀ step ∈ Operator.contractSteps, OperatorSafe step) ↔
      ∀ step ∈ Operator.contractSteps, OperatorRefundInitialized zeroDeployment step.before step.op) :=
  wallets_read_iff (.resting Player.contractSteps_run) (.resting Operator.contractSteps_run)

/-- A player that is asked for a refund first, on a chain that passes. -/
def refundFirst : Step (Player.enclave zeroDeployment) where
  before := Player.initial
  op := Player.Ecall.ecallRefund 0 (zeroHeaders 40)
  events := [.issued .fault]
  after := Player.initial
  result := none

theorem refundFirst_valid : refundFirst.Valid := by
  have hexec : Exec (Player.ecallRefund zeroDeployment 0 (zeroHeaders 40)) Player.initial
      [.issued .fault] Player.initial none := by
    have hstate : Player.initial.state ≠ .settled := by decide
    simp only [Player.ecallRefund, Player.ecallRefundImpl, exec_get_bind, zeroHeaders_pass, hstate,
      if_false, bind_assoc]
    exact .waiting
  exact hexec

/-- The deposit wallet is read before there is one. -/
theorem wallet_read_null : ¬ ∀ (dep : Deployment) (steps : List (Step (Player.enclave dep)))
    (state : Player.Globals), Trace (Player.enclave dep) Player.initial steps state →
      ∀ step ∈ steps, PlayerSafe step := by
  intro hall
  have htrace : Trace (Player.enclave zeroDeployment) Player.initial ([] ++ [refundFirst])
      refundFirst.after := .inside .start refundFirst_valid rfl
  have hheld : PlayerHeld Player.initial :=
    hall zeroDeployment _ _ htrace refundFirst (List.mem_singleton_self _) trivial ⟨rfl, [], rfl⟩
  exact absurd hheld.1 (by decide)

end Examples

end Auntie.Guarantees.WalletReads
