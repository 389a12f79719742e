import Auntie.Source.Operator.Entry

/-!
# What the operator's enclave releases

The settlement leaves the enclave before the state is written, and a refund is granted in
every state but `FINALIZED`. Still no run releases both the settlement and the deposit
key, and none releases the settlement or makes the operator's signature twice.
-/

namespace Auntie.Guarantees.ReleaseOnce
open Auntie.Source Auntie.Source.Operator Auntie.Interaction

def releasesSettlement {β : Type} : Call Callback β → Bool
  | .callback output =>
    match output with
    | .ocallFinalize _ _ => true
    | _ => false
  | _ => false

def releasesKey {β : Type} : Call Callback β → Bool
  | .callback output =>
    match output with
    | .ocallRefund _ _ => true
    | _ => false
  | _ => false

def signs {β : Type} : Call Callback β → Bool
  | .zcashSignTransaction _ _ _ => true
  | _ => false

/-- What has been released and signed so far. -/
structure Released where
  settlement : Bool
  key : Bool
  signature : Bool

def observer (dep : Deployment) : Observer (enclave dep) Released where
  host := {
    issued m c :=
      ⟨m.settlement || releasesSettlement c, m.key || releasesKey c, m.signature || signs c⟩
    safe _ m c :=
      (releasesSettlement c → m.settlement = false ∧ m.key = false) ∧
      (releasesKey c → m.settlement = false) ∧ (signs c → m.signature = false) }

/-- The state records what was released. -/
structure Recorded (globals : Globals) (m : Released) : Prop where
  settlement : m.settlement → globals.state = .finalized
  key : m.key → globals.state = .refunded
  signature : m.signature → globals.state ≠ .uninitialized ∧ globals.state ≠ .initialized

variable {dep : Deployment} {globals : Globals} {m : Released}

@[simp] theorem observer_issued {β : Type} (c : Call Callback β) :
    (observer dep).host.issued m c =
      ⟨m.settlement || releasesSettlement c, m.key || releasesKey c, m.signature || signs c⟩ := rfl

@[simp] theorem observer_answered {β : Type} (c : Call Callback β) (answer : β) :
    (observer dep).host.answered m c answer = m := rfl

/-- Code that releases nothing and does not sign. -/
theorem quiet_spec {α : Type} {permits : Permits Callback} {keeps : Globals → Prop} {p : Code α}
    (h : p.Within (Call.Permitted permits) keeps)
    (hsettlement : ∀ context settlement, ¬ permits.outputs (.ocallFinalize context settlement))
    (hkey : ∀ context key, ¬ permits.outputs (.ocallRefund context key))
    (hsigns : ¬ permits.signs) (hstate : keeps globals) {post : α → Globals → Released → Prop}
    (hpost : ∀ value last, keeps last → post value last m) :
    wp (observer dep).host post p globals m := by
  have hnothing {β : Type} (c : Call Callback β) (hc : c.Permitted permits) :
      releasesSettlement c = false ∧ releasesKey c = false ∧ signs c = false := by
    cases c with
    | callback output =>
      cases output with
      | ocallFinalize context settlement => exact absurd hc (hsettlement context settlement)
      | ocallRefund context key => exact absurd hc (hkey context key)
      | _ => exact ⟨rfl, rfl, rfl⟩
    | zcashSignTransaction key advice sighash => exact absurd hc hsigns
    | _ => exact ⟨rfl, rfl, rfl⟩
  refine h.quiet ?_ ?_ hstate hpost
  · intro β current c hc
    obtain ⟨h1, h2, h3⟩ := hnothing c hc
    simp [observer, h1, h2, h3]
  · intro β c answer hc
    obtain ⟨h1, h2, h3⟩ := hnothing c hc
    simp [h1, h2, h3]

theorem Recorded.moved {last : Globals} (h : Recorded globals m)
    (hstate : last.state = globals.state) : Recorded last m :=
  ⟨fun hm => hstate.trans (h.settlement hm), fun hm => hstate.trans (h.key hm),
    fun hm => by rw [hstate]; exact h.signature hm⟩

/-- Before anything was released. -/
theorem Recorded.fresh {state : State} (h : Recorded globals m) (hstate : globals.state = state)
    (hsettlement : state ≠ .finalized) (hkey : state ≠ .refunded) :
    m.settlement = false ∧ m.key = false := by
  constructor
  · by_contra hm
    exact hsettlement (hstate.symm.trans (h.settlement (by simpa using hm)))
  · by_contra hm
    exact hkey (hstate.symm.trans (h.key (by simpa using hm)))

section ClearContract

/-- Neither the settlement nor the key has been released. -/
def Unreleased (m : Released) : Prop := m.settlement = false ∧ m.key = false

theorem fault_safe : (observer dep).host.safe globals m .fault := by
  simp [observer, releasesSettlement, releasesKey, signs]

theorem signSettlement_spec {advices : List Pointer} {sighash : Blocks.Digest}
    (h : Unreleased m) (hsignature : m.signature = false) :
    wp (observer dep).host (fun _ _ m => Unreleased m) (signSettlement advices sighash)
      globals m := by
  simp only [signSettlement, wp_bind, wp_get]
  cases globals.depositWallet with
  | none => exact wp_deref_none.mpr fault_safe
  | some depositWallet =>
    rw [wp_deref_some]
    cases advices.head? with
    | none => exact wp_deref_none.mpr fault_safe
    | some advice =>
      simp only [wp_deref_some, wp_issue, wp_modify, wp_ite, wp_pure, observer_issued,
        observer_answered]
      refine ⟨⟨(fun h => by cases h), (fun h => by cases h), fun _ => hsignature⟩, fun signature => ?_⟩
      refine ⟨fun _ => ?_, fun _ => ?_⟩
      all_goals exact ⟨by simp [h.1, releasesSettlement], by simp [h.2, releasesKey]⟩

/-- The parts that do not sign. -/
theorem clear_quiet {α : Type} {p : Code α}
    (h : p.Within (Call.Permitted clearPermits) fun _ => True)
    {post : α → Globals → Released → Prop} (hpost : ∀ value last, post value last m) :
    wp (observer dep).host post p globals m :=
  quiet_spec h (by simp) (by simp) (by simp) trivial fun value last _ => hpost value last

theorem issueSettlement_spec {build : Build} {context : Pointer}
    {collateralTransaction merklePaths : Bytes} {memo : FixedBytes 512} {collected : Collected}
    {evaluation : Evaluation} (h : Unreleased m) (hsignature : m.signature = false) :
    wp (observer dep).host (fun _ _ m => Unreleased m)
      (issueSettlement build context collateralTransaction merklePaths memo collected evaluation)
      globals m := by
  simp only [issueSettlement, wp_bind]
  refine clear_quiet (Program.Within.issue (by trivial)) fun settlement last => ?_
  rw [wp_modify]
  cases settlement with
  | none => exact h
  | some settlement =>
    simp only [wp_bind]
    refine clear_quiet (Program.Within.issue (by trivial)) fun hashes last => ?_
    refine clear_quiet (sendClearContract_within (fun _ h => h.permitted clearPermits)
      (fun _ _ => trivial) _ _ _ _ _) fun ret last => ?_
    rw [wp_ite]
    refine ⟨fun _ => h, fun _ => ?_⟩
    rw [wp_bind]
    refine clear_quiet (outputDeposits_within (fun _ _ => trivial) _ _) fun ret last => ?_
    rw [wp_ite]
    exact ⟨fun _ => h, fun _ => signSettlement_spec h hsignature⟩

theorem settle_spec {build : Build} {context : Pointer}
    {collateralTransaction merklePaths : Bytes} {memo : FixedBytes 512} {collected : Collected}
    (h : Unreleased m) (hsignature : m.signature = false) :
    wp (observer dep).host (fun _ _ m => Unreleased m)
      (settle build context collateralTransaction merklePaths memo collected) globals m := by
  simp only [settle, wp_bind]
  refine clear_quiet (within_permitted (evaluateFunctionality_within _ _)) fun evaluation last => ?_
  simp only [wp_ite, wp_bind, wp_pure]
  exact ⟨fun _ => h, fun _ => issueSettlement_spec h hsignature⟩

theorem clearContract_spec {build : Build} {context : Pointer}
    {payoutAddress collateralTransaction merklePaths : Bytes}
    (h : Unreleased m) (hsignature : m.signature = false) :
    wp (observer dep).host (fun _ _ m => Unreleased m)
      (clearContract build context payoutAddress collateralTransaction merklePaths) globals m := by
  simp only [clearContract, wp_bind]
  refine clear_quiet (Program.Within.issue (by trivial)) fun memo last => ?_
  refine clear_quiet (Program.Within.issue (by trivial)) fun address last => ?_
  cases address with
  | none => exact h
  | some address =>
    simp only [wp_bind, wp_get]
    refine clear_quiet (deref_within (by trivial) _) fun depositWallet last => ?_
    refine clear_quiet (Program.Within.issue (by trivial)) fun advice last => ?_
    cases advice with
    | none => exact h
    | some advice =>
      simp only [wp_bind]
      refine clear_quiet (Program.Within.issue (by trivial)) fun transaction last => ?_
      cases transaction with
      | none => exact h
      | some transaction =>
        simp only [wp_bind]
        refine clear_quiet (Program.Within.issue (by trivial)) fun collateral last => ?_
        simp only [wp_ite, wp_bind, wp_pure]
        refine ⟨fun _ => h, fun _ => ?_⟩
        refine clear_quiet (collectDeposits_within (fun _ h => h.permitted clearPermits)
          (fun _ => trivial) _ _ _) fun collected last => ?_
        exact ⟨fun _ => h, fun _ => settle_spec h hsignature⟩

theorem ecallClearContractImpl_spec {build : Build} {context : Pointer}
    {payoutAddress collateralTransaction merklePaths : Bytes}
    (h : Unreleased m) (hsignature : m.signature = false) :
    wp (observer dep).host (fun _ _ m => Unreleased m)
      (ecallClearContractImpl build context payoutAddress collateralTransaction merklePaths)
      globals m := by
  simp only [ecallClearContractImpl, wp_bind]
  refine wp_mono ?_ (clearContract_spec h hsignature)
  intro result last m h
  refine clear_quiet (within_permitted (releaseObjects_within _ _)) fun _ last => ?_
  refine clear_quiet (within_permitted (freeBuffers_within _ _)) fun _ last => ?_
  simp only [wp_ite, wp_bind, wp_get, wp_pure]
  refine ⟨fun _ => ?_, fun _ => h⟩
  split
  · simp only [wp_bind, wp_modify, wp_pure]
    exact clear_quiet (Program.Within.issue (by trivial)) fun _ _ => h
  · exact h

end ClearContract

section Finalize

/-- The parts that do not hand the settlement out. -/
theorem finalize_quiet {α : Type} {p : Code α}
    (h : p.Within (Call.Permitted collectPermits) fun _ => True)
    {post : α → Globals → Released → Prop} (hpost : ∀ value last, post value last m) :
    wp (observer dep).host post p globals m :=
  quiet_spec h (by simp) (by simp) (by simp) trivial fun value last _ => hpost value last

/-- Only a call that returns zero has handed the settlement out. -/
def HandsOut (before : Released) (ret : Int32) (m : Released) : Prop :=
  m = before ∨ ret = 0 ∧ m = { before with settlement := true }

theorem authorizeSettlement_spec {context : Pointer} {signatures : List Pointer}
    (h : Unreleased m) :
    wp (observer dep).host (fun result _ last => HandsOut m result.1 last)
      (authorizeSettlement context signatures) globals m := by
  simp only [authorizeSettlement, wp_bind, wp_get]
  refine finalize_quiet (deref_within (by trivial) _) fun settlement last => ?_
  refine finalize_quiet (Program.Within.issue (by trivial)) fun authorized last => ?_
  rw [wp_modify]
  cases authorized with
  | none => exact .inl rfl
  | some authorized =>
    simp only [wp_bind]
    refine finalize_quiet (Program.Within.bind (Program.Within.issue (by trivial)) fun _ =>
      zcashExport_within (by trivial) (by trivial)) fun exported last => ?_
    cases exported with
    | error ret => exact .inl rfl
    | ok raw =>
      simp only [wp_bind, wp_issue, wp_pure, observer_issued, observer_answered]
      refine ⟨⟨fun _ => h, (fun h => by cases h), (fun h => by cases h)⟩, fun _ => .inr ⟨rfl, ?_⟩⟩
      simp [releasesSettlement, releasesKey, signs]

theorem ecallFinalizeImpl_spec {build : Build} {context : Pointer} (h : Unreleased m) :
    wp (observer dep).host (fun ret _ last => HandsOut m ret last)
      (ecallFinalizeImpl build context) globals m := by
  simp only [ecallFinalizeImpl, wp_bind]
  refine finalize_quiet (collectSignatures_within (fun _ h => h.permitted collectPermits)
    (fun _ => trivial) _) fun result last => ?_
  simp only [wp_ite, wp_bind, wp_get]
  constructor
  · intro _
    exact finalize_quiet (within_permitted (releaseSignatures_within _)) fun _ _ => .inl rfl
  · intro _
    refine finalize_quiet (deref_within (by trivial) _) fun operatorSignature last => ?_
    refine wp_mono ?_ (authorizeSettlement_spec h)
    rintro ⟨ret, authorized⟩ last m' hout
    simp only
    refine finalize_quiet (within_permitted (releaseSignatures_within _)) fun _ last => ?_
    split
    · simp only [wp_bind, wp_pure]
      exact finalize_quiet (Program.Within.issue (by trivial)) fun _ _ => hout
    · exact hout

end Finalize

section Ecalls
variable (h : Recorded globals m)
include h

theorem ecallConnectToPlayer_spec (context : Pointer) :
    wp (observer dep).host (fun _ last m => Recorded last m)
      (ecallConnectToPlayer dep context) globals m := by
  refine quiet_spec (ecallConnectToPlayer_permitted _) (by simp) (by simp) (by simp)
    ⟨_, _, _, _, _, rfl⟩ ?_
  rintro ret _ ⟨_, _, _, _, _, rfl⟩
  exact h.moved rfl

theorem ecallInitialize_spec (context : Pointer) :
    wp (observer dep).host (fun _ last m => Recorded last m)
      (ecallInitialize context) globals m := by
  simp only [ecallInitialize, setState, wp_bind, wp_get, wp_ite, wp_pure, wp_modify]
  refine ⟨fun _ => h, fun hstate => ?_⟩
  have hstate : globals.state = .uninitialized := not_not.mp hstate
  obtain ⟨hsettlement, hkey⟩ := h.fresh hstate (by decide) (by decide)
  have hsignature : m.signature = false := by
    by_contra hm
    exact (h.signature (by simpa using hm)).1 hstate
  refine quiet_spec (ecallInitializeImpl_within _) (by simp) (by simp) (by simp) ⟨_, rfl⟩ ?_
  rintro ret _ ⟨_, rfl⟩
  exact ⟨fun _ => ⟨by simp [hsettlement], by simp [hkey], by simp [hsignature]⟩,
    fun _ => h.moved rfl⟩

theorem ecallClearContract_spec (context : Pointer)
    (payoutAddress collateralTransaction merklePaths : Bytes) :
    wp (observer dep).host (fun _ last m => Recorded last m)
      (ecallClearContract dep context payoutAddress collateralTransaction merklePaths)
      globals m := by
  simp only [ecallClearContract, setState, wp_bind, wp_get, wp_ite, wp_pure, wp_modify]
  refine ⟨fun _ => h, fun hstate => ?_⟩
  have hstate : globals.state = .initialized := not_not.mp hstate
  have hsignature : m.signature = false := by
    by_contra hm
    exact (h.signature (by simpa using hm)).2 hstate
  refine wp_mono ?_ (ecallClearContractImpl_spec
    (h.fresh hstate (by decide) (by decide)) hsignature)
  rintro ret last m' ⟨hsettlement, hkey⟩
  refine ⟨by simp [hsettlement], by simp [hkey], fun _ => ?_⟩
  by_cases hret : ret = 0
  · simp [hret]
  · simp [hret]

theorem ecallFinalize_spec (context : Pointer) :
    wp (observer dep).host (fun _ last m => Recorded last m)
      (ecallFinalize dep context) globals m := by
  simp only [ecallFinalize, setState, wp_bind, wp_get, wp_ite, wp_pure, wp_modify]
  refine ⟨fun _ => h, fun hstate => ?_⟩
  obtain ⟨hsettlement, hkey⟩ := h.fresh (not_not.mp hstate) (by decide) (by decide)
  refine wp_mono ?_ (ecallFinalizeImpl_spec ⟨hsettlement, hkey⟩)
  rintro ret last m' (rfl | ⟨rfl, rfl⟩)
  · refine ⟨by simp [hsettlement], by simp [hkey], fun _ => ?_⟩
    by_cases hret : ret = 0
    · simp [hret]
    · simp [hret]
  · exact ⟨by simp, by simp [hkey], by simp⟩

theorem ecallRefund_spec (context : Pointer) (blocks : Bytes) :
    wp (observer dep).host (fun _ last m => Recorded last m)
      (ecallRefund dep context blocks) globals m := by
  simp only [ecallRefund, setState, wp_bind, wp_get, wp_ite, wp_pure, wp_modify]
  refine ⟨fun _ => h, fun hstate => ?_⟩
  have hsettlement : m.settlement = false := by
    by_contra hm
    exact hstate (h.settlement (by simpa using hm))
  have hreturned (ret : Int32) : (ret = 0 → Recorded { globals with state := .refunded } m) ∧
      (¬ret = 0 → Recorded globals m) :=
    ⟨fun _ => ⟨by simp [hsettlement], by simp, by simp⟩, fun _ => h⟩
  cases hchain : chainError dep.build.refundDelayBlocks
      (Blocks.zcashBlocksSinceCheckpoint dep.crates dep.build blocks) with
  | some error =>
    rw [ecallRefundImpl_refused hchain]
    exact hreturned error
  | none =>
    simp only [ecallRefundImpl, hchain, wp_bind, wp_get]
    cases globals.depositWallet with
    | none => exact wp_deref_none.mpr fault_safe
    | some depositWallet =>
      have hexport : (zcashExportKey depositWallet.key : Operator.Code _).Within
          (Call.Permitted ({} : Permits Callback)) (globals = ·) := zcashExport_within trivial trivial
      rw [wp_deref_some]
      refine quiet_spec hexport (fun _ _ => id) (fun _ _ => id) id rfl ?_
      rintro exported _ rfl
      cases exported with
      | error ret => exact hreturned ret
      | ok depositKey =>
        simp only [wp_bind, wp_issue, wp_pure, observer_issued, observer_answered]
        refine ⟨⟨(fun h => by cases h), fun _ => hsettlement, (fun h => by cases h)⟩, fun _ => ?_⟩
        refine ⟨?_, fun _ => ⟨fun _ => ?_, ?_⟩⟩
        · simp [observer, releasesSettlement, releasesKey, signs]
        · exact ⟨by simp [hsettlement, releasesSettlement], by simp, by simp⟩
        · exact fun hne => absurd trivial hne

end Ecalls

theorem handle_preserves (op : Ecall) (h : Recorded globals m) :
    (observer dep).Preserves Recorded op globals m := by
  cases op with
  | ecallConnectToPlayer context => exact ecallConnectToPlayer_spec h context
  | ecallInitialize context => exact ecallInitialize_spec h context
  | ecallClearContract context payoutAddress collateralTransaction merklePaths =>
    exact ecallClearContract_spec h context payoutAddress collateralTransaction merklePaths
  | ecallFinalize context => exact ecallFinalize_spec h context
  | ecallRefund context blocks => exact ecallRefund_spec h context blocks

/-- How many calls of a kind were issued. -/
def issuedCount (kind : {β : Type} → Call Callback β → Bool) (log : List (Entry (enclave dep))) :
    Nat :=
  log.countP fun entry =>
    match entry with
    | .host (.issued c) => kind c
    | _ => false

theorem issuedCount_cons {kind : {β : Type} → Call Callback β → Bool} {β : Type}
    (c : Call Callback β) (log : List (Entry (enclave dep))) :
    issuedCount kind (.host (.issued c) :: log) = issuedCount kind log + (kind c).toNat := by
  rw [issuedCount, List.countP_cons, ← issuedCount]
  cases h : kind c
  · simp only [h, Bool.false_eq_true, if_false, Bool.toNat_false]
  · simp only [h, if_true, Bool.toNat_true]

theorem releasesKey_of_settlement {β : Type} {c : Call Callback β}
    (h : releasesSettlement c = true) : releasesKey c = false := by
  cases c with
  | callback output =>
    cases output with
    | ocallFinalize context settlement => rfl
    | _ => cases h
  | _ => cases h

/-- What an accepted log can still release. -/
theorem accepted_counts (m : Released) (log : List (Entry (enclave dep)))
    (h : (observer dep).Accepts m log) :
    issuedCount releasesSettlement log + m.settlement.toNat ≤ 1 ∧
    issuedCount signs log + m.signature.toNat ≤ 1 ∧
    (issuedCount releasesKey log = 0 ∨ issuedCount releasesSettlement log = 0) ∧
    (m.settlement → issuedCount releasesKey log = 0) ∧
    (m.key → issuedCount releasesSettlement log = 0) := by
  induction log generalizing m with
  | nil =>
    have hone (b : Bool) : b.toNat ≤ 1 := by cases b <;> decide
    simp [issuedCount, hone]
  | cons entry log ih =>
    rcases entry with op | (c | ⟨c, answer⟩) | ⟨op, ret⟩
    · exact ih m h
    · obtain ⟨⟨_, hsettlement, hkey, hsign⟩, haccepts⟩ := h
      have hrest := ih _ haccepts
      have hone := releasesKey_of_settlement (c := c)
      obtain ⟨settlement, key, signature⟩ := m
      simp only [issuedCount_cons]
      simp only [observer, Observer.observe, Monitor.observe] at hrest hsettlement hkey hsign
      cases hs : releasesSettlement c
      · cases hk : releasesKey c
        all_goals cases hg : signs c
        all_goals simp_all
      · cases hg : signs c
        all_goals simp_all
    · exact ih m h
    · exact ih m h

/-- In every run, waiting ones included, at most one of the settlement and the deposit key
leaves the enclave, the settlement at most once, and the operator signs at most once. -/
theorem settlement_or_key_once (dep : Deployment) {steps : List (Step (enclave dep))}
    {state : Globals} (trace : Trace (enclave dep) (initial dep) steps state) :
    (issuedCount releasesSettlement (logOf steps) = 0 ∨
      issuedCount releasesKey (logOf steps) = 0) ∧
    issuedCount releasesSettlement (logOf steps) ≤ 1 ∧ issuedCount signs (logOf steps) ≤ 1 := by
  have hinit : Recorded (initial dep) ⟨false, false, false⟩ := ⟨nofun, nofun, nofun⟩
  have hstep : ∀ op globals m, True → Recorded globals m →
      (observer dep).Preserves Recorded op globals m := fun op _ _ _ => handle_preserves op
  have haccepts := trace.accepts (fun _ _ => trivial) hinit hstep
  obtain ⟨hsettlement, hsigns, hexclusive, -⟩ := accepted_counts _ _ haccepts
  exact ⟨hexclusive.symm, hsettlement, hsigns⟩

/-- A contract that is settled: the settlement is released, the key is not. -/
theorem settlement_or_key_once_settled :
    issuedCount releasesSettlement (logOf contractSteps) = 1 ∧
    issuedCount releasesKey (logOf contractSteps) = 0 ∧
    issuedCount signs (logOf contractSteps) ≤ 1 := by
  have hreleased : issuedCount releasesSettlement (logOf contractSteps) = 1 := by decide +kernel
  obtain ⟨hexclusive, -, hsigns⟩ :=
    settlement_or_key_once zeroDeployment (.resting contractSteps_run)
  have hkey := hexclusive.resolve_left (by rw [hreleased]; decide)
  exact ⟨hreleased, hkey, hsigns⟩

end Auntie.Guarantees.ReleaseOnce
