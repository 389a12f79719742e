import Auntie.Guarantees.OperatorReleases
import Auntie.Guarantees.PlayerReleases
import Auntie.Guarantees.WalletReads

/-!
# What a party can always get back

Money that is sent to the address an enclave hands out can only be spent with a key the enclave
keeps. It gives this key away on a chain that is old enough whatever has failed before, and a
player's payout key on a chain that shows the settlement; until a settlement neither a message
nor another ECALL takes that away. Only the allocator and a host that does not answer are left.
-/

namespace Auntie.Guarantees.Withdrawals
open Auntie.Source Auntie.Interaction
open ChainEvidence (Aged)
open WalletKeys

section Statement
variable {Callback σ : Type} {comp : Component (Call Callback) σ} {dep : Deployment}

/-- The address that was handed out is that of a wallet the call has made. -/
def Deposits (announces : Pointer → Bytes → Callback) (init : Step comp) (wallet : Wallet) : Prop :=
  Made init.events wallet ∧ ∃ context depositAddress,
    ExportsAddress init.events wallet depositAddress ∧
    .issued (.callback (announces context depositAddress)) ∈ init.events

/-- The key of the wallet has been handed out, or the allocator has failed and nothing has
changed. -/
def Granted (hands : Bytes → Callback) (wallet : Wallet) (before last : σ)
    (events : List (Event (Call Callback))) : Prop :=
  (∃ key, ExportsKey events wallet key ∧ .issued (.callback (hands key)) ∈ events) ∨
    .answered (.malloc 32) none ∈ events ∧ last = before

/-- The call does not fault, and when it returns the key has been granted. -/
structure Grants (hands : Bytes → Callback) (wallet : Wallet) (step : Step comp) : Prop where
  defined : ¬ WalletReads.Faults step
  granted : step.result.isSome → Granted hands wallet step.before step.after step.events

/-- As many valid headers follow the checkpoint as a refund waits for, of fewer than an `i32` can
count. -/
def Old (dep : Deployment) (blocks : Bytes) : Prop :=
  Aged dep blocks ∧ (chunksExact Blocks.blockHeaderLength blocks).length < 2 ^ 31

def PlayerInitialized (init : Step (Player.enclave dep)) : Prop :=
  (∃ context, init.op = Player.Ecall.ecallInitialize context) ∧ init.result = some (0 : Int32)

def PlayerConfirmed (confirm : Step (Player.enclave dep)) : Prop :=
  confirm.op = Player.Ecall.ecallConfirmDeposits ∧ confirm.result = some (0 : Int32)

def PlayerSettled (settle : Step (Player.enclave dep)) : Prop :=
  (∃ context blocks, settle.op = Player.Ecall.ecallSettle context blocks) ∧
    settle.result = some (0 : Int32)

def OperatorInitialized (init : Step (Operator.enclave dep)) : Prop :=
  (∃ context, init.op = Operator.Ecall.ecallInitialize context) ∧ init.result = some (0 : Int32)

def OperatorFinalized (finalize : Step (Operator.enclave dep)) : Prop :=
  (∃ context, finalize.op = Operator.Ecall.ecallFinalize context) ∧
    finalize.result = some (0 : Int32)

end Statement

section Grants
variable {Callback σ : Type} {comp : Component (Call Callback) σ} {step : Step comp}
variable {hands : Bytes → Callback} {wallet : Wallet}

/-- Every call but the one that has no answer. -/
def Runs (_ : List (Event (Call Callback))) {β : Type} : Call Callback β → Prop
  | .fault => False
  | _ => True

theorem grants_of_wp (valid : step.Valid)
    (h : wp (recording Runs) (fun _ last events => Granted hands wallet step.before last events)
      (comp.handle step.op) step.before []) : Grants hands wallet step := by
  constructor
  · intro hfaults
    obtain ⟨-, before, hevents⟩ := hfaults
    exact Exec.demanded valid h hevents
  · intro finished
    obtain ⟨before, op, events, last, result⟩ := step
    obtain ⟨ret, rfl⟩ := Option.isSome_iff_exists.mp finished
    have hgranted := Exec.recorded valid h
    exact hgranted

/-- How every call that hands out a key ends, once it has passed its checks. -/
def handKey (hands : Bytes → Callback) (wallet : Wallet) : Code Callback σ Int32 := do
  match ← zcashExportKey wallet.key with
  | .error ret => return ret
  | .ok key =>
    let _ ← issue (.callback (hands key.contents))
    issue (.free key.address)
    return 0

/-- It grants the key whatever the caller does to its state after a zero. -/
theorem handKey_grants {state : σ} (hands : Bytes → Callback) (wallet : Wallet) (next : σ → σ) :
    wp (recording Runs) (fun ret last events =>
        (ret = 0 → Granted hands wallet state (next last) events) ∧
          (¬ ret = 0 → Granted hands wallet state last events))
      (handKey hands wallet) state [] := by
  simp only [handKey, zcashExportKey, zcashExport, wp_bind, wp_recording_issue]
  refine ⟨trivial, fun address => ?_⟩
  cases address with
  | none => exact ⟨fun h => absurd h enomem_error, fun _ => .inr ⟨by simp, rfl⟩⟩
  | some address =>
    simp only [wp_bind, wp_recording_issue, wp_pure]
    refine ⟨trivial, fun raw => ⟨trivial, fun _ => ⟨trivial, fun _ => ⟨fun _ => ?_, ?_⟩⟩⟩⟩
    · exact .inl ⟨raw.val, ⟨raw, by simp, rfl⟩, by simp⟩
    · exact fun h => absurd trivial h

end Grants

section Player
open Player
open OneSignature (nextState Passes)
variable {dep : Deployment} {globals : Globals} {context : Pointer} {blocks : Bytes}
variable {depositWallet payoutWallet : Wallet}

theorem old_passes (h : Old dep blocks) : chainError dep.build.refundDelayBlocks
    (Blocks.zcashBlocksSinceCheckpoint dep.crates dep.build blocks) = none := by
  obtain ⟨⟨k, hcounts, hdelay⟩, hfew⟩ := h
  have hcount := HeaderCount.counts_iff.mp hcounts
  have hvalue : (Blocks.zcashBlocksSinceCheckpoint dep.crates dep.build blocks).toInt =
      (Blocks.countedHeaders dep.crates dep.build blocks).length :=
    HeaderCount.blocksSinceCheckpoint_toInt hfew
  rw [chainError_none, hvalue]
  constructor
  · exact Int.natCast_nonneg _
  · exact hdelay.trans (Int.ofNat_le.mpr hcount)

theorem ecallRefund_grants (hchain : chainError dep.build.refundDelayBlocks
      (Blocks.zcashBlocksSinceCheckpoint dep.crates dep.build blocks) = none)
    (hstate : globals.state ≠ .settled) (hwallet : globals.depositWallet = some depositWallet) :
    wp (recording Runs)
      (fun _ last events => Granted (.ocallRefund context) depositWallet globals last events)
      (ecallRefund dep context blocks) globals [] := by
  simp only [ecallRefund, setState, wp_bind, wp_get, wp_ite, wp_pure, wp_modify]
  refine ⟨fun h => absurd h hstate, fun _ => ?_⟩
  rw [ecallRefundImpl, hchain]
  dsimp only
  rw [wp_bind, wp_get, wp_bind, hwallet, wp_deref_some]
  exact handKey_grants (Callback.ocallRefund context) depositWallet fun last : Globals =>
    { last with state := .refunded }

theorem ecallSettle_grants (hpasses : Passes dep globals.settlementTxid blocks)
    (hstate : globals.state = .confirmedDeposits ∨ globals.state = .refunded)
    (hwallet : globals.depositWallet = some depositWallet)
    (hpayout : globals.payoutWallet = some payoutWallet) :
    wp (recording Runs)
      (fun _ last events => Granted (fun key => .ocallSettle context key
        (globals.functionalityOutput.map Buffer.contents) globals.functionalityOutputLength)
        payoutWallet globals last events)
      (ecallSettle dep context blocks) globals [] := by
  obtain ⟨count, houtcome, hchain⟩ := hpasses
  have hopen : ¬ (globals.state ≠ .confirmedDeposits ∧ globals.state ≠ .refunded) := by tauto
  simp only [ecallSettle, setState, wp_bind, wp_get, wp_ite, wp_pure, wp_modify]
  refine ⟨fun h => absurd h hopen, fun _ => ?_⟩
  rw [ecallSettleImpl, wp_bind, wp_get, wp_bind, hwallet, wp_deref_some, houtcome, chainVerifier,
    wp_bind, wp_pure, hchain]
  dsimp only
  rw [wp_bind, hpayout, wp_deref_some]
  exact handKey_grants (fun key => Callback.ocallSettle context key
    (globals.functionalityOutput.map Buffer.contents) globals.functionalityOutputLength)
    payoutWallet fun last : Globals => { last with state := .settled }

/-- The states after a confirmation. -/
def Ready (state : State) : Prop :=
  state = .confirmedDeposits ∨ state = .refunded ∨ state = .settled

theorem Ready.next {state : State} (h : Ready state) (op : Ecall) (ret : Int32) :
    Ready (nextState state op ret) := by
  by_cases hret : ret = 0
  all_goals cases op
  all_goals cases state
  all_goals simp_all [Ready, nextState]

theorem settled_of_next {state : State} {op : Ecall} {ret : Int32}
    (h : nextState state op ret = .settled) :
    state = .settled ∨ ret = 0 ∧ ∃ context blocks, op = .ecallSettle context blocks := by
  by_cases hret : ret = 0
  all_goals cases op
  all_goals cases state
  all_goals simp_all [nextState]

/-- What the ECALLs that have succeeded leave. -/
structure PlayerInv (steps : List (Step (enclave dep))) (globals : Globals) : Prop where
  wallets : WalletReads.PlayerInv globals
  fresh : globals.state = .uninitialized → globals.payoutWallet = none
  initialized : ∀ init ∈ steps, PlayerInitialized init → globals.state ≠ .uninitialized ∧
    (∀ wallet, globals.depositWallet = some wallet → Deposits .ocallInitialize init wallet) ∧
    ∀ wallet, globals.payoutWallet = some wallet → Made init.events wallet
  confirmed : ∀ confirm ∈ steps, PlayerConfirmed confirm → Ready globals.state
  settled : globals.state = .settled → ∃ settle ∈ steps, PlayerSettled settle

section Steps
variable {steps : List (Step (enclave dep))} {step : Step (enclave dep)}

theorem uninitialized_kept {state : State} {op : Ecall} {ret : Int32}
    (h : state ≠ .uninitialized) : nextState state op ret ≠ .uninitialized :=
  fun hnext => h (PlayerReleases.uninitialized_of_next hnext).1

theorem initialize_left (hfresh : step.before.state = .uninitialized →
      step.before.payoutWallet = none) (valid : step.Valid) {ret : Int32}
    (hret : step.result = some ret) {context : Pointer}
    (hop : step.op = Ecall.ecallInitialize context) :
    step.before.state = .uninitialized ∧ PlayerReleases.Leaves ret step.after step.events ∨
      step.after = step.before := by
  obtain ⟨before, op, events, last, result⟩ := step
  cases hret
  cases hop
  have hspec : wp (recording (PlayerReleases.Releases dep (.ecallInitialize context) before))
      (PlayerReleases.Left (.ecallInitialize context) before) (ecallInitialize context) before [] :=
    PlayerReleases.ecallInitialize_hands context hfresh
  have hleft := Exec.recorded valid hspec
  exact hleft.initialized ⟨context, rfl⟩

/-- What an earlier initialization has made stays. -/
theorem PlayerInv.initialized_next (h : PlayerInv steps step.before) (valid : step.Valid)
    {ret : Int32} (hret : step.result = some ret) {init : Step (enclave dep)}
    (hinit : init ∈ steps) (hinitialized : PlayerInitialized init) :
    step.after.state ≠ .uninitialized ∧
      (∀ wallet, step.after.depositWallet = some wallet → Deposits .ocallInitialize init wallet) ∧
      ∀ wallet, step.after.payoutWallet = some wallet → Made init.events wallet := by
  obtain ⟨hstate, hdeposit, hpayout⟩ := h.initialized init hinit hinitialized
  have hkept : RetainedOutput.WalletsKept step.before step.after := by
    by_cases hinitialize : ∃ context, step.op = Ecall.ecallInitialize context
    · obtain ⟨context, hop⟩ := hinitialize
      rcases initialize_left h.fresh valid hret hop with ⟨hother, _⟩ | hsame
      · exact absurd hother hstate
      · rw [hsame]
        exact ⟨rfl, rfl⟩
    · exact (RetainedOutput.step_touches valid).wallets
        fun context hop => hinitialize ⟨context, hop⟩
  refine ⟨?_, fun wallet hwallet => ?_, fun wallet hwallet => ?_⟩
  · rw [(OneSignature.step_moved valid hret).state]
    exact uninitialized_kept hstate
  · exact hdeposit wallet (hkept.1.symm.trans hwallet)
  · exact hpayout wallet (hkept.2.symm.trans hwallet)

theorem PlayerInv.fresh_next (h : PlayerInv steps step.before) (valid : step.Valid) {ret : Int32}
    (hret : step.result = some ret) (hstate : step.after.state = .uninitialized) :
    step.after.payoutWallet = none := by
  rw [(OneSignature.step_moved valid hret).state] at hstate
  obtain ⟨hbefore, hfailed⟩ := PlayerReleases.uninitialized_of_next hstate
  by_cases hinitialize : ∃ context, step.op = Ecall.ecallInitialize context
  · obtain ⟨context, hop⟩ := hinitialize
    rcases initialize_left h.fresh valid hret hop with ⟨_, hleaves⟩ | hsame
    · exact hleaves.failed (hfailed ⟨context, hop⟩)
    · rw [hsame]
      exact h.fresh hbefore
  · have hkept := (RetainedOutput.step_touches valid).wallets
      fun context hop => hinitialize ⟨context, hop⟩
    exact hkept.2.trans (h.fresh hbefore)

/-- What an initialization that succeeds has made. -/
theorem PlayerInv.initializes (h : PlayerInv steps step.before) (valid : step.Valid)
    (hinitialized : PlayerInitialized step) : step.after.state ≠ .uninitialized ∧
      (∀ wallet, step.after.depositWallet = some wallet → Deposits .ocallInitialize step wallet) ∧
      ∀ wallet, step.after.payoutWallet = some wallet → Made step.events wallet := by
  obtain ⟨⟨context, hop⟩, hret⟩ := hinitialized
  have hmoved := OneSignature.step_moved valid hret
  have haccepted := hmoved.accepted rfl
  rw [hop] at haccepted
  have hbefore : step.before.state = .uninitialized := haccepted
  have hafter : step.after.state = .initialized := by
    rw [hmoved.state, hop, hbefore]
    rfl
  rcases initialize_left h.fresh valid hret hop with ⟨_, hleaves⟩ | hsame
  · refine ⟨by simp [hafter], fun wallet hwallet => ?_, hleaves.payoutWallet⟩
    exact hleaves.depositWallet wallet hwallet
  · rw [hsame, hbefore] at hafter
    cases hafter

theorem PlayerInv.next (h : PlayerInv steps step.before) (valid : step.Valid)
    (finished : step.result.isSome) : PlayerInv (steps ++ [step]) step.after := by
  obtain ⟨ret, hret⟩ := Option.isSome_iff_exists.mp finished
  have hmoved := OneSignature.step_moved valid hret
  constructor
  · exact WalletReads.player_inv h.wallets valid finished
  · exact h.fresh_next valid hret
  · intro init hinit hinitialized
    rcases List.mem_append.mp hinit with hinit | hinit
    · exact h.initialized_next valid hret hinit hinitialized
    · rw [List.mem_singleton.mp hinit] at hinitialized ⊢
      exact h.initializes valid hinitialized
  · intro confirm hconfirm hconfirmed
    rw [hmoved.state]
    rcases List.mem_append.mp hconfirm with hconfirm | hconfirm
    · exact (h.confirmed confirm hconfirm hconfirmed).next _ _
    · rw [List.mem_singleton.mp hconfirm] at hconfirmed
      obtain ⟨hop, hzero⟩ := hconfirmed
      cases hret.symm.trans hzero
      have haccepted := hmoved.accepted rfl
      rw [hop] at haccepted ⊢
      have hbefore : step.before.state = .gotDeposits := haccepted
      rw [hbefore]
      exact .inl rfl
  · intro hsettled
    rw [hmoved.state] at hsettled
    rcases settled_of_next hsettled with hbefore | ⟨rfl, hop⟩
    · obtain ⟨settle, hsettle, hsettles⟩ := h.settled hbefore
      exact ⟨settle, List.mem_append_left _ hsettle, hsettles⟩
    · exact ⟨step, by simp, hop, hret⟩

theorem playerInv_initial : PlayerInv ([] : List (Step (enclave dep))) initial where
  wallets := ⟨fun _ => rfl, fun h => absurd rfl h⟩
  fresh _ := rfl
  initialized _ h := absurd h List.not_mem_nil
  confirmed _ h := absurd h List.not_mem_nil
  settled h := by cases h

end Steps

/-- After an initialization that has succeeded, and before a settlement that has. -/
theorem player_withdraws {steps : List (Step (enclave dep))} {last : Globals}
    (trace : Trace (enclave dep) initial steps last) {earlier later : List (Step (enclave dep))}
    {step init : Step (enclave dep)} (hsplit : steps = earlier ++ step :: later)
    (hinit : init ∈ earlier) (hinitialized : PlayerInitialized init)
    (hopen : ∀ settle ∈ earlier, ¬ PlayerSettled settle) :
    (∃ wallet, Deposits .ocallInitialize init wallet ∧ ∀ context blocks,
      step.op = Ecall.ecallRefund context blocks → Old dep blocks →
        Grants (.ocallRefund context) wallet step) ∧
    ∃ wallet, Made init.events wallet ∧ ∀ context blocks,
      step.op = Ecall.ecallSettle context blocks → (∃ confirm ∈ earlier, PlayerConfirmed confirm) →
        Passes dep step.before.settlementTxid blocks →
          Grants (fun key => .ocallSettle context key
            (step.before.functionalityOutput.map Buffer.contents)
            step.before.functionalityOutputLength) wallet step := by
  have hthroughout : Throughout (fun earlier step => PlayerInv earlier step.before ∧ step.Valid ∧
      True) steps :=
    trace.throughout (fun _ _ _ _ => trivial) playerInv_initial
      fun _ _ hinv valid finished _ => hinv.next valid finished
  obtain ⟨hinv, valid, -⟩ := hthroughout earlier step later hsplit
  obtain ⟨hstate, hdeposit, hpayout⟩ := hinv.initialized init hinit hinitialized
  have hsettled : step.before.state ≠ .settled := by
    intro h
    obtain ⟨settle, hsettle, hsettles⟩ := hinv.settled h
    exact hopen settle hsettle hsettles
  obtain ⟨hdepositHeld, hpayoutHeld⟩ := hinv.wallets.held hstate
  obtain ⟨depositWallet, hdepositWallet⟩ := Option.isSome_iff_exists.mp hdepositHeld
  obtain ⟨payoutWallet, hpayoutWallet⟩ := Option.isSome_iff_exists.mp hpayoutHeld
  obtain ⟨before, op, events, after, result⟩ := step
  constructor
  · refine ⟨depositWallet, hdeposit depositWallet hdepositWallet, fun context blocks hop hold => ?_⟩
    cases hop
    exact grants_of_wp valid (ecallRefund_grants (old_passes hold) hsettled hdepositWallet)
  · refine ⟨payoutWallet, hpayout payoutWallet hpayoutWallet, ?_⟩
    intro context blocks hop hconfirm hpasses
    obtain ⟨confirm, hconfirm, hconfirmed⟩ := hconfirm
    have hready : before.state = .confirmedDeposits ∨ before.state = .refunded := by
      rcases hinv.confirmed confirm hconfirm hconfirmed with hready | hready | hready
      · exact .inl hready
      · exact .inr hready
      · exact absurd hready hsettled
    cases hop
    exact grants_of_wp valid (ecallSettle_grants hpasses hready hdepositWallet hpayoutWallet)

end Player

section Operator
open Operator
open SettlementOffer (nextState)
variable {dep : Deployment} {globals : Globals} {context : Pointer} {blocks : Bytes}
variable {depositWallet : Wallet}

theorem operator_refund_grants (hchain : chainError dep.build.refundDelayBlocks
      (Blocks.zcashBlocksSinceCheckpoint dep.crates dep.build blocks) = none)
    (hstate : globals.state ≠ .finalized) (hwallet : globals.depositWallet = some depositWallet) :
    wp (recording Runs)
      (fun _ last events => Granted (.ocallRefund context) depositWallet globals last events)
      (ecallRefund dep context blocks) globals [] := by
  simp only [ecallRefund, setState, wp_bind, wp_get, wp_ite, wp_pure, wp_modify]
  refine ⟨fun h => absurd h hstate, fun _ => ?_⟩
  rw [ecallRefundImpl, hchain]
  dsimp only
  rw [wp_bind, wp_get, wp_bind, hwallet, wp_deref_some]
  exact handKey_grants (Callback.ocallRefund context) depositWallet fun last : Globals =>
    { last with state := .refunded }

theorem uninitialized_of_next {state : State} {op : Ecall} {ret : Int32}
    (h : nextState state op ret = .uninitialized) : state = .uninitialized ∧
      ((∃ context, op = .ecallInitialize context) → ret ≠ 0) := by
  by_cases hret : ret = 0
  all_goals cases op
  all_goals cases state
  all_goals simp_all [nextState]

theorem finalized_of_next {state : State} {op : Ecall} {ret : Int32}
    (h : nextState state op ret = .finalized) :
    state = .finalized ∨ ret = 0 ∧ ∃ context, op = .ecallFinalize context := by
  by_cases hret : ret = 0
  all_goals cases op
  all_goals cases state
  all_goals simp_all [nextState]

structure OperatorInv (steps : List (Step (enclave dep))) (globals : Globals) : Prop where
  wallets : WalletReads.OperatorInv globals
  initialized : ∀ init ∈ steps, OperatorInitialized init → globals.state ≠ .uninitialized ∧
    ∀ wallet, globals.depositWallet = some wallet → Deposits .ocallInitialize init wallet
  finalized : globals.state = .finalized → ∃ finalize ∈ steps, OperatorFinalized finalize

section Steps
variable {steps : List (Step (enclave dep))} {step : Step (enclave dep)}

theorem operator_initialize_left (valid : step.Valid) {ret : Int32} (hret : step.result = some ret)
    {context : Pointer} (hop : step.op = Ecall.ecallInitialize context) :
    step.before.state = .uninitialized ∧ OperatorReleases.Leaves step.after step.events ∨
      ret ≠ 0 ∧ step.after = step.before := by
  obtain ⟨before, op, events, last, result⟩ := step
  cases hret
  cases hop
  have hspec : wp (recording (OperatorReleases.Releases dep (.ecallInitialize context) before))
      (OperatorReleases.Left dep (.ecallInitialize context) before) (ecallInitialize context) before
      [] := OperatorReleases.ecallInitialize_hands context
  have hleft := Exec.recorded valid hspec
  exact hleft.initialized ⟨context, rfl⟩

theorem OperatorInv.initialized_next (h : OperatorInv steps step.before) (valid : step.Valid)
    {ret : Int32} (hret : step.result = some ret) {init : Step (enclave dep)}
    (hinit : init ∈ steps) (hinitialized : OperatorInitialized init) :
    step.after.state ≠ .uninitialized ∧ ∀ wallet, step.after.depositWallet = some wallet →
      Deposits .ocallInitialize init wallet := by
  obtain ⟨hstate, hdeposit⟩ := h.initialized init hinit hinitialized
  have hkept : step.after.depositWallet = step.before.depositWallet := by
    by_cases hinitialize : ∃ context, step.op = Ecall.ecallInitialize context
    · obtain ⟨context, hop⟩ := hinitialize
      rcases operator_initialize_left valid hret hop with ⟨hother, _⟩ | ⟨_, hsame⟩
      · exact absurd hother hstate
      · rw [hsame]
    · exact OperatorReleases.wallet_kept valid (by rw [hret]; rfl) hinitialize
  constructor
  · rw [(SettlementOffer.step_moved valid hret).state]
    exact fun hnext => hstate (uninitialized_of_next hnext).1
  · exact fun wallet hwallet => hdeposit wallet (hkept.symm.trans hwallet)

theorem operator_initializes (valid : step.Valid) (hinitialized : OperatorInitialized step) :
    step.after.state ≠ .uninitialized ∧ ∀ wallet, step.after.depositWallet = some wallet →
      Deposits .ocallInitialize step wallet := by
  obtain ⟨⟨context, hop⟩, hret⟩ := hinitialized
  have hmoved := SettlementOffer.step_moved valid hret
  have hafter : step.after.state ≠ .uninitialized := by
    rw [hmoved.state]
    exact fun hnext => (uninitialized_of_next hnext).2 ⟨context, hop⟩ rfl
  refine ⟨hafter, fun wallet hwallet => ?_⟩
  rcases operator_initialize_left valid hret hop with ⟨_, hleaves⟩ | ⟨hfailed, _⟩
  · exact hleaves wallet hwallet
  · exact absurd rfl hfailed

theorem OperatorInv.next (h : OperatorInv steps step.before) (valid : step.Valid)
    (finished : step.result.isSome) : OperatorInv (steps ++ [step]) step.after := by
  obtain ⟨ret, hret⟩ := Option.isSome_iff_exists.mp finished
  constructor
  · exact WalletReads.operator_inv h.wallets valid finished
  · intro init hinit hinitialized
    rcases List.mem_append.mp hinit with hinit | hinit
    · exact h.initialized_next valid hret hinit hinitialized
    · rw [List.mem_singleton.mp hinit] at hinitialized ⊢
      exact operator_initializes valid hinitialized
  · intro hfinalized
    rw [(SettlementOffer.step_moved valid hret).state] at hfinalized
    rcases finalized_of_next hfinalized with hbefore | ⟨rfl, hop⟩
    · obtain ⟨finalize, hfinalize, hfinalizes⟩ := h.finalized hbefore
      exact ⟨finalize, List.mem_append_left _ hfinalize, hfinalizes⟩
    · exact ⟨step, by simp, hop, hret⟩

theorem operatorInv_initial : OperatorInv ([] : List (Step (enclave dep))) (initial dep) where
  wallets := ⟨fun _ => rfl, fun h => absurd rfl h⟩
  initialized _ h := absurd h List.not_mem_nil
  finalized h := by cases h

end Steps

/-- After an initialization that has succeeded, and before a finalization that has. -/
theorem operator_withdraws {steps : List (Step (enclave dep))} {last : Globals}
    (trace : Trace (enclave dep) (initial dep) steps last)
    {earlier later : List (Step (enclave dep))} {step init : Step (enclave dep)}
    (hsplit : steps = earlier ++ step :: later) (hinit : init ∈ earlier)
    (hinitialized : OperatorInitialized init)
    (hopen : ∀ finalize ∈ earlier, ¬ OperatorFinalized finalize) :
    ∃ wallet, Deposits .ocallInitialize init wallet ∧ ∀ context blocks,
      step.op = Ecall.ecallRefund context blocks → Old dep blocks →
        Grants (.ocallRefund context) wallet step := by
  have hthroughout : Throughout (fun earlier step => OperatorInv earlier step.before ∧
      step.Valid ∧ True) steps :=
    trace.throughout (fun _ _ _ _ => trivial) operatorInv_initial
      fun _ _ hinv valid finished _ => hinv.next valid finished
  obtain ⟨hinv, valid, -⟩ := hthroughout earlier step later hsplit
  obtain ⟨hstate, hdeposit⟩ := hinv.initialized init hinit hinitialized
  have hfinalized : step.before.state ≠ .finalized := by
    intro h
    obtain ⟨finalize, hfinalize, hfinalizes⟩ := hinv.finalized h
    exact hopen finalize hfinalize hfinalizes
  obtain ⟨wallet, hwallet⟩ := Option.isSome_iff_exists.mp (hinv.wallets.held hstate)
  obtain ⟨before, op, events, after, result⟩ := step
  refine ⟨wallet, hdeposit wallet hwallet, fun context blocks hop hold => ?_⟩
  cases hop
  exact grants_of_wp valid (operator_refund_grants (old_passes hold) hfinalized hwallet)

end Operator

section Runs
variable {dep : Deployment}

/-- Once an enclave has been initialized, and as long as no settlement has left it, every refund
on a chain that is old enough grants the key of the address it has handed out, whatever else has
been asked, received or failed in the run; and a player that has confirmed is granted its
payout key and its output on a chain that shows the settlement. -/
theorem withdrawals_granted (dep : Deployment) :
    (∀ (steps : List (Step (Player.enclave dep))) (last : Player.Globals),
      Trace (Player.enclave dep) Player.initial steps last →
      ∀ earlier step later, steps = earlier ++ step :: later →
      ∀ init ∈ earlier, PlayerInitialized init →
      (∀ settle ∈ earlier, ¬ PlayerSettled settle) →
      (∃ wallet, Deposits .ocallInitialize init wallet ∧ ∀ context blocks,
        step.op = Player.Ecall.ecallRefund context blocks → Old dep blocks →
          Grants (.ocallRefund context) wallet step) ∧
      ∃ wallet, Made init.events wallet ∧ ∀ context blocks,
        step.op = Player.Ecall.ecallSettle context blocks →
        (∃ confirm ∈ earlier, PlayerConfirmed confirm) →
        OneSignature.Passes dep step.before.settlementTxid blocks →
          Grants (fun key => .ocallSettle context key
            (step.before.functionalityOutput.map Buffer.contents)
            step.before.functionalityOutputLength) wallet step) ∧
    ∀ (steps : List (Step (Operator.enclave dep))) (last : Operator.Globals),
      Trace (Operator.enclave dep) (Operator.initial dep) steps last →
      ∀ earlier step later, steps = earlier ++ step :: later →
      ∀ init ∈ earlier, OperatorInitialized init →
      (∀ finalize ∈ earlier, ¬ OperatorFinalized finalize) →
      ∃ wallet, Deposits .ocallInitialize init wallet ∧ ∀ context blocks,
        step.op = Operator.Ecall.ecallRefund context blocks → Old dep blocks →
          Grants (.ocallRefund context) wallet step := by
  constructor
  · intro steps last trace earlier step later hsplit init hinit hinitialized hopen
    exact player_withdraws trace hsplit hinit hinitialized hopen
  · intro steps last trace earlier step later hsplit init hinit hinitialized hopen
    exact operator_withdraws trace hsplit hinit hinitialized hopen

end Runs

section Examples
open Player
open Blocks (zeroHeaders)

/-- An ECALL that has created the wallets. -/
def initializes : Ecall → Option Int32 → Bool
  | .ecallInitialize _, result => result = some 0
  | _, _ => false

theorem of_initializes {op : Ecall} {result : Option Int32} (h : initializes op result = true) :
    (∃ context, op = .ecallInitialize context) ∧ result = some 0 := by
  cases op with
  | ecallInitialize context => exact ⟨⟨context, rfl⟩, of_decide_eq_true h⟩
  | _ => cases h

theorem initialized_played : ∃ init ∈ contractSteps, PlayerInitialized init := by
  have hplayed : contractSteps.any (fun init => initializes init.op init.result) = true := by
    decide +kernel
  obtain ⟨init, hinit, hinitializes⟩ := List.any_eq_true.mp hplayed
  exact ⟨init, hinit, of_initializes hinitializes⟩

theorem unsettled_played : ∀ settle ∈ contractSteps, ¬ PlayerSettled settle := by
  intro settle hsettle hsettled
  obtain ⟨⟨context, blocks, hop⟩, -⟩ := hsettled
  have hops : contractSteps.map Step.op = contract := playRun_ops
  have hmem : (Ecall.ecallSettle context blocks : Ecall) ∈ contract := by
    rw [← hops, ← hop]
    exact List.mem_map_of_mem hsettle
  simp [contract] at hmem

theorem zeroHeaders_old : Old zeroDeployment (zeroHeaders 40) := by
  have hfew : (chunksExact Blocks.blockHeaderLength (zeroHeaders 40)).length < 2 ^ 31 := by
    rw [zeroHeaders, chunksExact_flatMap (by decide)]
    decide
  exact ⟨ChainEvidence.aged_of_count zeroHeaders_pass, hfew⟩

/-- The contract, and a refund on a chain of 40 headers. -/
theorem withdrawals_granted_refunded : ∃ step : Step (enclave zeroDeployment),
    Run (enclave zeroDeployment) initial (contractSteps ++ [step]) step.after ∧
      step.result = some (0 : Int32) ∧ ∃ wallet, Grants (.ocallRefund 0) wallet step := by
  have hwallet : contractState.depositWallet = some ⟨1, 1, 1⟩ := by decide +kernel
  have hstate : contractState.state ≠ .settled := by decide +kernel
  obtain ⟨step, hvalid, hbefore, hop, hresult, -⟩ :=
    ecallRefund_releases 0 hstate zeroHeaders_pass hwallet (FixedBytes.zero 32)
  have hrun := Run.next (hbefore ▸ contractSteps_run) hvalid (by rw [hresult]; rfl)
  obtain ⟨init, hinit, hinitialized⟩ := initialized_played
  obtain ⟨⟨wallet, -, hgrants⟩, -⟩ := (withdrawals_granted zeroDeployment).1 _ _ (.resting hrun)
    contractSteps step [] rfl init hinit hinitialized unsettled_played
  exact ⟨step, hrun, hresult, wallet, hgrants 0 _ hop zeroHeaders_old⟩

end Examples

end Auntie.Guarantees.Withdrawals
