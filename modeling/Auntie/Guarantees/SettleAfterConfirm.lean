import Auntie.Source.Player.Entry
import Mathlib.Data.List.Induction

/-!
# What a player's settlement was preceded by

`ecall_settle` is refused in every state but `CONFIRMED_DEPOSITS` and `REFUNDED`,
and the errors that abort a contract leave it in `ABORTED`. But `ecall_refund` is
granted in every state except `SETTLED` and leaves `REFUNDED` behind, which does not
remember whether the player ever confirmed: a player that was refunded early can
settle after all.

`settle_after_confirm` is the law on the runs in which no refund is granted to a
player that has not confirmed.
-/

namespace Auntie.Guarantees.SettleAfterConfirm
open Auntie.Source Auntie.Source.Player Auntie.Interaction

/-- How far a player has come: `ecall_get_deposits` has succeeded, and after it
`ecall_confirm_deposits`. -/
inductive Progress where
  | nothing
  | gotDeposits
  | confirmed
  deriving DecidableEq

def Progress.advance (progress : Progress) : Ecall → Int32 → Progress
  | .ecallGetDeposits _, ret =>
    if ret = 0 ∧ progress = .nothing then .gotDeposits else progress
  | .ecallConfirmDeposits, ret =>
    if ret = 0 ∧ progress = .gotDeposits then .confirmed else progress
  | _, _ => progress

variable (dep : Deployment)

def observer : Observer (enclave dep) Progress where
  host := {
    safe _ progress c :=
      match c with
      | .callback (.ocallSettle _ _ _ _) => progress = .confirmed
      | _ => True }
  leave := Progress.advance

/-- What the state of `entry.c` says about the past, as long as no player is refunded
before it has confirmed. -/
def Recorded (globals : Globals) (progress : Progress) : Prop :=
  match globals.state with
  | .uninitialized | .initialized | .deposited => progress = .nothing
  | .gotDeposits => progress = .gotDeposits
  | .confirmedDeposits | .settled | .refunded => progress = .confirmed
  | .aborted => True

/-- The refund is not granted to a player that has not confirmed: either the chain does
not pass, or the state is past the confirmation. -/
def RefundsConfirmed (globals : Globals) : Ecall → Prop
  | .ecallRefund _ blocks =>
    chainError dep.build.refundDelayBlocks
      (Blocks.zcashBlocksSinceCheckpoint dep.crates dep.build blocks) = none →
    globals.state = .confirmedDeposits ∨ globals.state = .refunded ∨ globals.state = .settled
  | _ => True

variable {dep} {globals : Globals} {progress : Progress}

/-- An impl that does not release the output leaves what is recorded. -/
theorem impl_spec {α : Type} {permits : Permits Callback} {keeps : Globals → Prop} {p : Code α}
    (h : p.Within (Call.Permitted permits) keeps)
    (hsettle : ∀ context payoutKey output length,
      permits.outputs (.ocallSettle context payoutKey output length) → progress = .confirmed)
    (hstate : keeps globals)
    {post : α → Globals → Progress → Prop}
    (hpost : ∀ value last, keeps last → post value last progress) :
    wp (observer dep).host post p globals progress := by
  refine h.quiet ?_ (fun _ _ _ => rfl) hstate hpost
  intro β current c hc
  cases c with
  | callback output =>
    cases output with
    | ocallSettle context payoutKey output length => exact hsettle _ _ _ _ hc
    | ocallInitialize | ocallGetDeposits | ocallRefund => trivial
  | _ => trivial

section Ecalls
variable (dep) (h : Recorded globals progress)
include h

theorem ecallConnectToOperator_spec (context : Pointer) (playerId : Nat) :
    wp (observer dep).host (fun _ last m => Recorded last m)
      (ecallConnectToOperator dep context playerId) globals progress := by
  refine impl_spec (ecallConnectToOperatorImpl_permitted _ _ _) (by simp) ⟨_, _, rfl⟩ ?_
  rintro ret _ ⟨operator, stash, rfl⟩
  exact h

theorem ecallInitialize_spec (context : Pointer) :
    wp (observer dep).host (fun _ last m => Recorded last m)
      (ecallInitialize context) globals progress := by
  simp only [ecallInitialize, setState, wp_bind, wp_get, wp_ite, wp_pure]
  refine ⟨fun _ => h, fun hstate => ?_⟩
  refine impl_spec (ecallInitializeImpl_within _) (by simp) ⟨_, _, rfl⟩ ?_
  rintro ret _ ⟨depositWallet, payoutWallet, rfl⟩
  simp_all [Recorded]

theorem ecallDepositAndInput_spec (depositTransaction input : Bytes) :
    wp (observer dep).host (fun _ last m => Recorded last m)
      (ecallDepositAndInput dep depositTransaction input) globals progress := by
  simp only [ecallDepositAndInput, setState, wp_bind, wp_get, wp_ite, wp_pure]
  refine ⟨fun _ => h, fun hstate => ?_⟩
  refine impl_spec (ecallDepositAndInputImpl_within _ _ _) (by simp) ⟨_, rfl⟩ ?_
  rintro ret _ ⟨depositAdvice, rfl⟩
  by_cases hret : ret = 0
  · simp_all [Recorded]
  · simp_all [Recorded]

theorem ecallGetDeposits_spec (context : Pointer) :
    wp (observer dep).host
      (fun ret last m => Recorded last (m.advance (.ecallGetDeposits context) ret))
      (ecallGetDeposits dep context) globals progress := by
  simp only [ecallGetDeposits, setState, wp_bind, wp_get, wp_ite, wp_pure]
  refine ⟨fun hstate => h, fun hstate => ?_⟩
  refine impl_spec (ecallGetDepositsImpl_permitted _ _) (by simp) ⟨_, _, _, _, rfl⟩ ?_
  rintro ret _ ⟨output, length, sighash, txid, rfl⟩
  by_cases hret : ret = 0
  · simp_all [Recorded, Progress.advance]
  · simp_all [Recorded, Progress.advance]

theorem ecallConfirmDeposits_spec :
    wp (observer dep).host
      (fun ret last m => Recorded last (m.advance .ecallConfirmDeposits ret))
      ecallConfirmDeposits globals progress := by
  simp only [ecallConfirmDeposits, setState, wp_bind, wp_get, wp_ite, wp_pure]
  constructor
  · intro hstate
    exact h
  · intro hstate
    refine impl_spec ecallConfirmDepositsImpl_permitted (by simp) ⟨_, rfl⟩ ?_
    rintro ret _ ⟨depositAdvice, rfl⟩
    by_cases hret : ret = 0
    · simp_all [Recorded, Progress.advance]
    · simp_all [Recorded, Progress.advance]

theorem ecallSettle_spec (context : Pointer) (blocks : Bytes) :
    wp (observer dep).host (fun _ last m => Recorded last m)
      (ecallSettle dep context blocks) globals progress := by
  simp only [ecallSettle, setState, wp_bind, wp_get, wp_ite, wp_pure]
  refine ⟨fun _ => h, fun hstate => ?_⟩
  have hprogress : progress = .confirmed := by
    by_cases hconfirmed : globals.state = .confirmedDeposits
    · simpa [Recorded, hconfirmed] using h
    · have hrefunded : globals.state = .refunded := by
        by_contra hne
        exact hstate ⟨hconfirmed, hne⟩
      simpa [Recorded, hrefunded] using h
  refine impl_spec (ecallSettleImpl_within _ _) (fun _ _ _ _ _ => hprogress) rfl ?_
  rintro ret _ rfl
  exact ⟨fun _ => hprogress, fun _ => h⟩

/-- Only a granted refund changes the state, and only after the confirmation. -/
theorem ecallRefund_spec (context : Pointer) (blocks : Bytes)
    (hconfirmed : RefundsConfirmed dep globals (.ecallRefund context blocks)) :
    wp (observer dep).host (fun _ last m => Recorded last m)
      (ecallRefund dep context blocks) globals progress := by
  simp only [ecallRefund, setState, wp_bind, wp_get, wp_ite, wp_pure]
  refine ⟨fun _ => h, fun hstate => ?_⟩
  cases hchain : chainError dep.build.refundDelayBlocks
      (Blocks.zcashBlocksSinceCheckpoint dep.crates dep.build blocks) with
  | some error =>
    rw [ecallRefundImpl_refused hchain]
    exact ⟨fun hzero => absurd hzero (chainError_ne_zero hchain), fun _ => h⟩
  | none =>
    have hprogress : progress = .confirmed := by
      rcases hconfirmed hchain with hs | hs | hs
      all_goals simpa [Recorded, hs] using h
    refine impl_spec (ecallRefundImpl_within _ _) (by simp) rfl ?_
    rintro ret _ rfl
    exact ⟨fun _ => hprogress, fun _ => h⟩

end Ecalls

theorem handle_preserves (op : Ecall) (hconfirmed : RefundsConfirmed dep globals op)
    (h : Recorded globals progress) :
    (observer dep).Preserves Recorded op globals progress := by
  cases op with
  | ecallConnectToOperator context playerId =>
    exact ecallConnectToOperator_spec dep h context playerId
  | ecallInitialize context => exact ecallInitialize_spec dep h context
  | ecallDepositAndInput depositTransaction input =>
    exact ecallDepositAndInput_spec dep h depositTransaction input
  | ecallGetDeposits context => exact ecallGetDeposits_spec dep h context
  | ecallConfirmDeposits => exact ecallConfirmDeposits_spec dep h
  | ecallSettle context blocks => exact ecallSettle_spec dep h context blocks
  | ecallRefund context blocks => exact ecallRefund_spec dep h context blocks hconfirmed

/-- `ecall_get_deposits` has succeeded. -/
def GotDeposits (log : List (Entry (enclave dep))) : Prop :=
  ∃ context, .returned (.ecallGetDeposits context) (0 : Int32) ∈ log

/-- `ecall_get_deposits` has succeeded, and `ecall_confirm_deposits` after it. -/
def Confirmed (log : List (Entry (enclave dep))) : Prop :=
  ∃ context, List.Sublist
    [.returned (.ecallGetDeposits context) (0 : Int32), .returned .ecallConfirmDeposits (0 : Int32)]
    log

/-- The progress after a log. -/
def progressOf (log : List (Entry (enclave dep))) : Progress :=
  log.foldl (observer dep).observe .nothing

theorem observe_cases (progress : Progress) (entry : Entry (enclave dep)) :
    (observer dep).observe progress entry = progress ∨
    (∃ context, entry = .returned (.ecallGetDeposits context) (0 : Int32) ∧
      (observer dep).observe progress entry = .gotDeposits) ∨
    (entry = .returned .ecallConfirmDeposits (0 : Int32) ∧ progress = .gotDeposits ∧
      (observer dep).observe progress entry = .confirmed) := by
  rcases entry with op | (c | ⟨c, answer⟩) | ⟨op, ret⟩
  · exact .inl rfl
  · exact .inl rfl
  · exact .inl rfl
  · cases op with
    | ecallGetDeposits context =>
      by_cases h : ret = (0 : Int32) ∧ progress = .nothing
      · exact .inr (.inl ⟨context, by rw [h.1], if_pos h⟩)
      · exact .inl (if_neg h)
    | ecallConfirmDeposits =>
      by_cases h : ret = (0 : Int32) ∧ progress = .gotDeposits
      · exact .inr (.inr ⟨by rw [h.1], h.2, if_pos h⟩)
      · exact .inl (if_neg h)
    | _ => exact .inl rfl

/-- The progress is what the log shows. -/
theorem progress_shown (log : List (Entry (enclave dep))) :
    (progressOf log = .gotDeposits → GotDeposits log) ∧
      (progressOf log = .confirmed → Confirmed log) := by
  induction log using List.reverseRecOn with
  | nil => exact ⟨(fun h => by cases h), (fun h => by cases h)⟩
  | append_singleton log entry ih =>
    have hlast : progressOf (log ++ [entry]) = (observer dep).observe (progressOf log) entry := by
      simp [progressOf]
    rcases observe_cases (progressOf log) entry with h | ⟨context, hentry, h⟩ | ⟨hentry, hgot, h⟩
    · rw [hlast, h]
      refine ⟨fun hgot => ?_, fun hconfirmed => ?_⟩
      · obtain ⟨context, hmem⟩ := ih.1 hgot
        exact ⟨context, List.mem_append_left _ hmem⟩
      · obtain ⟨context, hsub⟩ := ih.2 hconfirmed
        exact ⟨context, hsub.trans (List.sublist_append_left _ _)⟩
    · rw [hlast, h]
      exact ⟨fun _ => ⟨context, by simp [hentry]⟩, (by simp)⟩
    · rw [hlast, h]
      obtain ⟨context, hmem⟩ := ih.1 hgot
      refine ⟨(by simp), fun _ => ⟨context, ?_⟩⟩
      rw [hentry]
      exact (List.singleton_sublist.mpr hmem).append (List.Sublist.refl [_])

/-- In every run in which a refund is granted only to a player that has confirmed, the
payout key and the output leave the enclave only after `ecall_get_deposits` and then
`ecall_confirm_deposits` have succeeded. -/
theorem settle_after_confirm {steps : List (Step (enclave dep))} {state : Globals}
    (trace : Trace (enclave dep) initial steps state)
    (hrefunds : ∀ step ∈ steps, RefundsConfirmed dep step.before step.op)
    {before after : List (Entry (enclave dep))} {context : Pointer} {payoutKey : Bytes}
    {output : Option Bytes} {length : Nat}
    (hsettle : logOf steps =
      before ++ .host (.issued (.callback (.ocallSettle context payoutKey output length))) :: after) :
    Confirmed before := by
  have haccepts : (observer dep).Accepts .nothing (logOf steps) :=
    trace.accepts hrefunds rfl fun op _ _ => handle_preserves op
  rw [hsettle] at haccepts
  obtain ⟨_, hconfirmed⟩ := haccepts.issued
  exact (progress_shown before).2 hconfirmed

section Examples
open Blocks (zeroBlocks zeroHeaders zeroBlocks_buried)

theorem contract_refunds {globals : Globals} {op : Ecall} (h : op ∈ contract) :
    RefundsConfirmed zeroDeployment globals op := by
  simp only [contract, List.mem_cons, List.not_mem_nil, or_false] at h
  rcases h with rfl | rfl | rfl | rfl | rfl
  all_goals trivial

theorem contractSteps_refunds (step : Step (enclave zeroDeployment)) (h : step ∈ contractSteps) :
    RefundsConfirmed zeroDeployment step.before step.op := by
  have hops : contractSteps.map Step.op = contract := playRun_ops
  apply contract_refunds
  rw [← hops]
  exact List.mem_map_of_mem h

/-- A whole contract, settled on a chain of 81 blocks. -/
theorem settle_after_confirm_contract : ∃ (steps : List (Step (enclave zeroDeployment)))
    (before after : List (Entry (enclave zeroDeployment))), logOf steps =
      before ++ .host (.issued (.callback
        (.ocallSettle 0 (List.replicate 32 0) (some [9]) 1))) :: after ∧ Confirmed before := by
  have htxid : contractState.settlementTxid = FixedBytes.zero 32 := by decide +kernel
  have houtput : contractState.functionalityOutput = some ⟨1, [9]⟩ := by decide +kernel
  have hlength : contractState.functionalityOutputLength = 1 := by decide +kernel
  have hwallet : contractState.depositWallet = some ⟨1, 1, 1⟩ := by decide +kernel
  have hpayout : contractState.payoutWallet = some ⟨1, 1, 1⟩ := by decide +kernel
  have hburied : (Blocks.zcashAuthorizedAndBuried zeroDeployment.crates zeroDeployment.build
      contractState.settlementTxid (zeroBlocks 80)).outcome = .returned (Int32.ofNat 80) := by
    rw [htxid]
    exact zeroBlocks_buried 80
  obtain ⟨step, hvalid, hbefore, hop, hresult, -, hissued⟩ := ecallSettle_releases 0
    (.inl (by decide +kernel)) hburied (by decide) hwallet hpayout (FixedBytes.zero 32)
  rw [houtput, hlength] at hissued
  have hrun := Run.next (hbefore ▸ contractSteps_run) hvalid (by rw [hresult]; rfl)
  obtain ⟨before, after, hsplit⟩ := List.append_of_mem (mem_logOf_issued
    (List.mem_append_right contractSteps (List.mem_singleton_self step)) hissued)
  refine ⟨_, before, after, hsplit, settle_after_confirm (.resting hrun) ?_ hsplit⟩
  intro other hother
  rcases List.mem_append.mp hother with hother | hother
  · exact contractSteps_refunds other hother
  · rw [List.mem_singleton.mp hother, hop]
    trivial

def uncontractSteps : List (Step (enclave zeroDeployment)) :=
  playRun (enclave zeroDeployment) contractHost 0 initial (contract.take 4)

def uncontractState : Globals := lastState (enclave zeroDeployment) initial uncontractSteps

/-- The player does not confirm, is refunded on 40 blocks, and settles on 81. -/
theorem settle_without_confirm : ∃ (steps : List (Step (enclave zeroDeployment))) (state : Globals)
    (before after : List (Entry (enclave zeroDeployment))),
    Run (enclave zeroDeployment) initial steps state ∧ logOf steps =
      before ++ .host (.issued (.callback
        (.ocallSettle 0 (List.replicate 32 0) (some [9]) 1))) :: after ∧ ¬ Confirmed before := by
  have hwallet : uncontractState.depositWallet = some ⟨1, 1, 1⟩ := by decide +kernel
  have hpayout : uncontractState.payoutWallet = some ⟨1, 1, 1⟩ := by decide +kernel
  have htxid : uncontractState.settlementTxid = FixedBytes.zero 32 := by decide +kernel
  have houtput : uncontractState.functionalityOutput = some ⟨1, [9]⟩ := by decide +kernel
  have hlength : uncontractState.functionalityOutputLength = 1 := by decide +kernel
  have hearly : Run (enclave zeroDeployment) initial uncontractSteps uncontractState :=
    run_playRun (enclave zeroDeployment) contractHost initial (contract.take 4) (by decide +kernel)
  have hops : uncontractSteps.map Step.op = contract.take 4 := playRun_ops
  obtain ⟨refund, hrefund, hbefore, hrefundOp, hret, hafter, -⟩ := ecallRefund_releases 0
    (by decide +kernel) zeroHeaders_pass hwallet (FixedBytes.zero 32)
  have hrefunded := Run.next (hbefore ▸ hearly) hrefund (by rw [hret]; rfl)
  have hwallet : refund.after.depositWallet = some ⟨1, 1, 1⟩ := by rw [hafter, ← hwallet]
  have hpayout : refund.after.payoutWallet = some ⟨1, 1, 1⟩ := by rw [hafter, ← hpayout]
  have htxid : refund.after.settlementTxid = FixedBytes.zero 32 := by rw [hafter, ← htxid]
  have houtput : refund.after.functionalityOutput = some ⟨1, [9]⟩ := by rw [hafter, ← houtput]
  have hlength : refund.after.functionalityOutputLength = 1 := by rw [hafter, ← hlength]
  have hburied : (Blocks.zcashAuthorizedAndBuried zeroDeployment.crates zeroDeployment.build
      refund.after.settlementTxid (zeroBlocks 80)).outcome = .returned (Int32.ofNat 80) := by
    rw [htxid]
    exact zeroBlocks_buried 80
  obtain ⟨settle, hsettle, hbefore, hsettleOp, hret, -, hissued⟩ := ecallSettle_releases 0
    (.inr (by rw [hafter])) hburied (by decide) hwallet hpayout (FixedBytes.zero 32)
  rw [houtput, hlength] at hissued
  have hsettled := Run.next (hbefore ▸ hrefunded) hsettle (by rw [hret]; rfl)
  obtain ⟨before, after, hsplit⟩ := List.append_of_mem (mem_logOf_issued
    (List.mem_append_right (uncontractSteps ++ [refund]) (List.mem_singleton_self settle)) hissued)
  refine ⟨_, _, before, after, hsettled, hsplit, ?_⟩
  rintro ⟨context, hconfirmed⟩
  have hreturned := hconfirmed.subset (List.mem_cons_of_mem _ (List.mem_singleton_self _))
  have hop := mem_logOf_returned (hsplit ▸ List.mem_append_left _ hreturned)
  rw [List.map_append, List.map_append, hops, List.map_singleton, List.map_singleton, hrefundOp,
    hsettleOp] at hop
  change Ecall.ecallConfirmDeposits ∈ contract.take 4 ++ [.ecallRefund 0 (zeroHeaders 40)] ++
    [.ecallSettle 0 (zeroBlocks 80)] at hop
  simp [contract] at hop

end Examples

end Auntie.Guarantees.SettleAfterConfirm
