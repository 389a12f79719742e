import Auntie.Guarantees.ChainEvidence
import Auntie.Guarantees.RetainedOutput
import Auntie.Guarantees.WalletKeys

/-!
# What a player's enclave gives away

Four OCALLs carry something out of the enclave: the address to deposit to, the deposit
transactions, the payout key with the functionality output, and the deposit key. Each is made by
one ECALL in one state, on the evidence that ECALL checks, and hands out what the run has made or
received before. After a settlement there are no more of them.
-/

namespace Auntie.Guarantees.PlayerReleases
open Auntie.Source Auntie.Source.Player Auntie.Interaction
open Blocks (Digest)
open ChainEvidence (Buried Aged)
open OneSignature (nextState)
open RetainedOutput (Retains)
open WalletKeys

section Statement
variable {dep : Deployment}

/-- What a callback hands out, and what its ECALL has seen before. -/
def Handed (dep : Deployment) (op : Ecall) (before : Globals)
    (events : List (Event (Call Callback))) : Callback → Prop
  | .ocallInitialize context depositAddress => op = .ecallInitialize context ∧
      before.state = .uninitialized ∧
      ∃ wallet, Made events wallet ∧ ExportsAddress events wallet depositAddress
  | .ocallGetDeposits context depositTransaction => op = .ecallGetDeposits context ∧
      before.state = .deposited ∧ ∃ operator msg, before.operator = some operator ∧
        .answered (.auntieMsgReceive operator.channel) (some msg) ∈ events ∧
        msg.msgType = msgClearContract ∧ ∃ i ≤ dep.build.numPlayers, depositTransaction =
          if i < dep.build.numPlayers then
            ClearContract.depositTransaction dep.build.numPlayers msg i
          else ClearContract.lastDepositTransaction dep.build.numPlayers msg
  | .ocallSettle context payoutKey output length => (∃ blocks, op = .ecallSettle context blocks ∧
        Buried dep before.settlementTxid blocks) ∧
      (before.state = .confirmedDeposits ∨ before.state = .refunded) ∧
      (∃ wallet, before.payoutWallet = some wallet ∧ ExportsKey events wallet payoutKey) ∧
      output = before.functionalityOutput.map Buffer.contents ∧
      length = before.functionalityOutputLength
  | .ocallRefund context depositKey => (∃ blocks, op = .ecallRefund context blocks ∧
        Aged dep blocks) ∧
      before.state ≠ .settled ∧
      ∃ wallet, before.depositWallet = some wallet ∧ ExportsKey events wallet depositKey

/-- Where the wallets and the output come from: the wallets from the call that handed out the
address of one of them, the output from a message. -/
structure Backed (earlier : List (Step (enclave dep))) (globals : Globals) : Prop where
  depositWallet : ∀ wallet, globals.depositWallet = some wallet → ∃ init ∈ earlier,
    Made init.events wallet ∧ ∃ context depositAddress,
      ExportsAddress init.events wallet depositAddress ∧
      .issued (.callback (.ocallInitialize context depositAddress)) ∈ init.events
  payoutWallet : ∀ wallet, globals.payoutWallet = some wallet → ∃ init ∈ earlier,
    Made init.events wallet
  output : ∀ output, globals.functionalityOutput = some output → ∃ get ∈ earlier,
    ∃ operator msg, Retains dep.build.numPlayers get globals output operator msg

end Statement

section Ecalls
open Program (Within)
variable {dep : Deployment} {before globals : Globals} {op : Ecall}

def Releases (dep : Deployment) (op : Ecall) (before : Globals)
    (events : List (Event (Call Callback))) {β : Type} : Call Callback β → Prop
  | .callback output => Handed dep op before events output
  | _ => True

theorem releases_internal {β : Type} (c : Call Callback β) (h : c.Internal)
    (events : List (Event (Call Callback))) : Releases dep op before events c := by
  cases c with
  | callback => exact absurd h id
  | _ => trivial

/-- Code that hands nothing out. -/
theorem recorded_quiet {α : Type} {permits : Permits Callback} {keeps : Globals → Prop} {p : Code α}
    {post : α → Globals → List (Event (Call Callback)) → Prop}
    {events : List (Event (Call Callback))} (hpermits : ∀ output, ¬ permits.outputs output)
    (h : p.Within (Call.Permitted permits) keeps) (hstate : keeps globals)
    (hpost : ∀ value last events, keeps last → post value last events) :
    wp (recording (Releases dep op before)) post p globals events := by
  have hdemands : ∀ {β : Type} (c : Call Callback β), c.Permitted permits → ∀ events,
      Releases dep op before events c := by
    intro β c hc _
    cases c with
    | callback output => exact absurd hc (hpermits output)
    | _ => trivial
  refine h.recorded hdemands hstate fun value last events hexec => ?_
  exact hpost value last _ (h.kept hexec hstate)

/-- What initialization leaves in the globals. -/
structure Leaves (ret : Int32) (last : Globals) (events : List (Event (Call Callback))) :
    Prop where
  depositWallet : ∀ wallet, last.depositWallet = some wallet → Made events wallet ∧
    ∃ context depositAddress, ExportsAddress events wallet depositAddress ∧
      .issued (.callback (.ocallInitialize context depositAddress)) ∈ events
  payoutWallet : ∀ wallet, last.payoutWallet = some wallet → Made events wallet
  failed : ret ≠ 0 → last.payoutWallet = none

theorem leaves_none {ret : Int32} {last : Globals} {events : List (Event (Call Callback))}
    (hdeposit : last.depositWallet = none) (hpayout : last.payoutWallet = none) :
    Leaves ret last events := by
  constructor
  · intro wallet hwallet
    cases hdeposit.symm.trans hwallet
  · intro wallet hwallet
    cases hpayout.symm.trans hwallet
  · exact fun _ => hpayout

/-- What is left when initialization fails. -/
theorem drop_leaves {depositWallet payoutWallet : Wallet} {value : Int32}
    {events : List (Event (Call Callback))} :
    wp (recording (Releases dep op before)) Leaves
      (do dropWallets depositWallet payoutWallet; return value : Code Int32) globals events := by
  simp only [dropWallets, wp_bind]
  refine zcashReleaseWallet_recorded releases_internal fun _ => ?_
  refine zcashReleaseWallet_recorded releases_internal fun _ => ?_
  rw [wp_modify]
  exact leaves_none rfl rfl

/-- Both wallets are made, and the address of the first is handed out. -/
theorem ecallInitializeImpl_hands (context : Pointer) (hstate : before.state = .uninitialized)
    (hpayout : before.payoutWallet = none) :
    wp (recording (Releases dep (.ecallInitialize context) before)) Leaves
      (ecallInitializeImpl context) before [] := by
  rw [ecallInitializeImpl, wp_bind]
  refine zcashCreateWallet_recorded releases_internal fun depositWallet first hfirst => ?_
  rw [wp_bind, wp_modify]
  cases depositWallet with
  | none => exact leaves_none rfl hpayout
  | some depositWallet =>
    have hdepositMade := hfirst depositWallet rfl
    rw [wp_bind]
    refine zcashCreateWallet_recorded releases_internal fun payoutWallet second hsecond => ?_
    rw [wp_bind, wp_modify]
    cases payoutWallet with
    | none =>
      rw [wp_bind]
      refine zcashReleaseWallet_recorded releases_internal fun _ => ?_
      rw [wp_bind, wp_modify]
      exact leaves_none rfl rfl
    | some payoutWallet =>
      have hpayoutMade := hsecond payoutWallet rfl
      rw [zcashExportAddress, wp_bind]
      refine zcashExport_recorded releases_internal trivial fun address third haddress => ?_
      cases address with
      | error ret => exact drop_leaves
      | ok address =>
        have hexported : ExportsAddress third depositWallet address.contents := haddress
        simp only [wp_bind, wp_recording_issue]
        refine ⟨⟨rfl, hstate, depositWallet, hdepositMade.mono (by simp), hexported.mono (by simp)⟩,
          fun ret => ⟨trivial, fun _ => ?_⟩⟩
        rw [wp_ite]
        refine ⟨fun _ => drop_leaves, fun hret => ⟨?_, ?_, fun h => absurd h hret⟩⟩
        · intro wallet hwallet
          cases hwallet
          exact ⟨hdepositMade.mono (by simp), context, address.contents,
            hexported.mono fun _ h => by simp [h], by simp⟩
        · intro wallet hwallet
          cases hwallet
          exact hpayoutMade.mono (by simp)

/-- The deposit transactions of the message that has arrived. -/
theorem outputDeposits_hands {context : Pointer} {operator : Operator} {msg : ReceivedMessage}
    (hstate : before.state = .deposited) (hoperator : before.operator = some operator)
    (htype : msg.msgType = msgClearContract) {indices : List Nat}
    (hindices : ∀ i ∈ indices, i < dep.build.numPlayers) {events : List (Event (Call Callback))}
    (harrived : .answered (.auntieMsgReceive operator.channel) (some msg) ∈ events) :
    wp (recording (Releases dep (.ecallGetDeposits context) before))
      (fun _ _ later => .answered (.auntieMsgReceive operator.channel) (some msg) ∈ later)
      (outputDeposits dep.build context msg indices) globals events := by
  induction indices generalizing events with
  | nil => exact harrived
  | cons i rest ih =>
    have hi := hindices i List.mem_cons_self
    rw [outputDeposits, wp_bind, wp_recording_issue]
    constructor
    · refine ⟨rfl, hstate, operator, msg, hoperator, harrived, htype, i, hi.le, ?_⟩
      rw [if_pos hi]
    · intro ret
      rw [wp_ite]
      refine ⟨fun _ => by simp [harrived], fun _ => ?_⟩
      exact ih (fun j hj => hindices j (List.mem_cons_of_mem i hj)) (by simp [harrived])

theorem dropOutput_quiet {output : Buffer} :
    (dropOutput output).Within (Call.Permitted ({} : Permits Callback)) fun _ => True :=
  Within.bind (Within.issue trivial) fun _ => Within.update fun _ _ => trivial

theorem ecallGetDepositsImpl_hands (context : Pointer) (hstate : before.state = .deposited) :
    wp (recording (Releases dep (.ecallGetDeposits context) before)) (fun _ _ _ => True)
      (ecallGetDepositsImpl dep.build context) before [] := by
  simp only [ecallGetDepositsImpl, wp_bind, wp_get]
  cases hoperator : before.operator with
  | none => exact wp_deref_none.mpr trivial
  | some operator =>
    rw [wp_deref_some, wp_recording_issue]
    refine ⟨trivial, fun msg => ?_⟩
    cases msg with
    | none => trivial
    | some msg =>
      simp only [wp_bind, wp_recording_issue, wp_ite, wp_pure, wp_modify]
      refine ⟨fun _ => ⟨trivial, fun _ => trivial⟩, fun htype => ⟨trivial, fun address => ?_⟩⟩
      cases address with
      | none =>
        simp only [wp_bind, wp_modify, wp_recording_issue, wp_pure]
        exact ⟨trivial, fun _ => trivial⟩
      | some address =>
        simp only [outputAllDeposits, wp_bind, wp_modify]
        refine wp_mono ?_ (outputDeposits_hands hstate hoperator (not_not.mp htype)
          (fun i hi => List.mem_range.mp hi) (by simp))
        intro error last later harrived
        cases error with
        | some error =>
          simp only [wp_bind, wp_recording_issue]
          refine ⟨trivial, fun _ => ?_⟩
          exact recorded_quiet (fun _ h => h) dropOutput_quiet trivial fun _ _ _ _ => trivial
        | none =>
          simp only [wp_bind, wp_recording_issue, wp_ite, wp_pure]
          refine ⟨⟨rfl, hstate, operator, msg, hoperator, harrived, not_not.mp htype, _, le_rfl,
            (if_neg (Nat.lt_irrefl _)).symm⟩, fun ret => ⟨trivial, fun _ => ⟨fun _ => ?_, ?_⟩⟩⟩
          · exact recorded_quiet (fun _ h => h) dropOutput_quiet trivial fun _ _ _ _ => trivial
          · exact fun _ => trivial

/-- Nothing has been handed out. -/
def Quiet (events : List (Event (Call Callback))) : Prop :=
  ∀ output, .issued (.callback output) ∉ events

def handsOut {β : Type} : Call Callback β → Bool
  | .callback _ => true
  | _ => false

theorem quiet_malloc {size : Nat} {answer : Option Pointer} :
    Quiet [.issued (.malloc size), .answered (.malloc size) answer] := by
  intro output hmem
  have hany := List.any_eq_true.mpr ⟨_, hmem, (rfl : issues handsOut _ = true)⟩
  cases hany

theorem ecallSettleImpl_hands (hdelay : 0 < dep.build.settleDelayBlocks) (context : Pointer)
    (blocks : Bytes) (hstate : before.state = .confirmedDeposits ∨ before.state = .refunded) :
    wp (recording (Releases dep (.ecallSettle context blocks) before))
      (fun ret _ events => ret ≠ 0 → Quiet events)
      (ecallSettleImpl dep context blocks) before [] := by
  simp only [ecallSettleImpl, wp_bind, wp_get]
  cases before.depositWallet with
  | none => exact wp_deref_none.mpr trivial
  | some depositWallet =>
    rw [wp_deref_some]
    cases houtcome : (Blocks.zcashAuthorizedAndBuried dep.crates dep.build
        before.settlementTxid blocks).outcome with
    | panicked => exact wp_fault.mpr trivial
    | returned count =>
      simp only [chainVerifier, wp_pure]
      cases hchain : chainError dep.build.settleDelayBlocks count with
      | some error => exact fun _ _ => List.not_mem_nil
      | none =>
        have hburied := ChainEvidence.buried_of_count hdelay houtcome hchain
        simp only [zcashExportKey, zcashExport, wp_bind]
        cases hwallet : before.payoutWallet with
        | none => exact wp_deref_none.mpr trivial
        | some payoutWallet =>
          rw [wp_deref_some, wp_recording_issue]
          refine ⟨trivial, fun address => ?_⟩
          cases address with
          | none => exact fun _ => quiet_malloc
          | some address =>
            simp only [wp_bind, wp_recording_issue, wp_pure]
            refine ⟨trivial, fun raw => ⟨?_, fun _ => ⟨trivial, fun _ h => absurd rfl h⟩⟩⟩
            exact ⟨⟨blocks, rfl, hburied⟩, hstate, ⟨payoutWallet, hwallet, raw, by simp, rfl⟩, rfl,
              rfl⟩

theorem ecallRefundImpl_hands (context : Pointer) (blocks : Bytes)
    (hstate : before.state ≠ .settled) :
    wp (recording (Releases dep (.ecallRefund context blocks) before)) (fun _ _ _ => True)
      (ecallRefundImpl dep context blocks) before [] := by
  cases hchain : chainError dep.build.refundDelayBlocks
      (Blocks.zcashBlocksSinceCheckpoint dep.crates dep.build blocks) with
  | some error =>
    rw [ecallRefundImpl_refused hchain]
    trivial
  | none =>
    simp only [ecallRefundImpl, hchain, zcashExportKey, zcashExport, wp_bind, wp_get]
    cases hwallet : before.depositWallet with
    | none => exact wp_deref_none.mpr trivial
    | some depositWallet =>
      rw [wp_deref_some, wp_recording_issue]
      refine ⟨trivial, fun address => ?_⟩
      cases address with
      | none => trivial
      | some address =>
        simp only [wp_bind, wp_recording_issue, wp_pure]
        refine ⟨trivial, fun raw => ⟨?_, fun _ => ⟨trivial, fun _ => trivial⟩⟩⟩
        exact ⟨⟨blocks, rfl, ChainEvidence.aged_of_count hchain⟩, hstate, depositWallet, hwallet,
          raw, by simp, rfl⟩

/-- What is known of an ECALL that has returned. -/
structure Left (op : Ecall) (before : Globals) (ret : Int32) (last : Globals)
    (events : List (Event (Call Callback))) : Prop where
  initialized : (∃ context, op = .ecallInitialize context) →
    before.state = .uninitialized ∧ Leaves ret last events ∨ last = before
  settled : (∃ context blocks, op = .ecallSettle context blocks) → ret ≠ 0 → Quiet events

theorem ecallInitialize_hands (context : Pointer)
    (hfresh : before.state = .uninitialized → before.payoutWallet = none) :
    wp (recording (Releases dep (.ecallInitialize context) before))
      (Left (.ecallInitialize context) before) (ecallInitialize context) before [] := by
  simp only [ecallInitialize, setState, wp_bind, wp_get, wp_ite, wp_pure, wp_modify]
  refine ⟨fun _ => ⟨fun _ => .inr rfl, by simp⟩, fun hstate => ?_⟩
  have hstate := not_not.mp hstate
  refine wp_mono ?_ (ecallInitializeImpl_hands context hstate (hfresh hstate))
  intro ret last events hleaves
  constructor
  · intro _
    have hleft : Leaves ret { last with state := .initialized } events :=
      ⟨hleaves.depositWallet, hleaves.payoutWallet, hleaves.failed⟩
    exact ⟨fun _ => .inl ⟨hstate, hleft⟩, by simp⟩
  · intro _
    exact ⟨fun _ => .inl ⟨hstate, hleaves⟩, by simp⟩

theorem handle_hands (hdelay : 0 < dep.build.settleDelayBlocks) (op : Ecall)
    (hfresh : before.state = .uninitialized → before.payoutWallet = none) :
    wp (recording (Releases dep op before)) (Left op before) (handle dep op) before [] := by
  cases op with
  | ecallConnectToOperator context playerId =>
    exact recorded_quiet (fun _ h => h) (ecallConnectToOperatorImpl_permitted _ context playerId)
      ⟨_, _, rfl⟩ fun _ _ _ _ => ⟨by simp, by simp⟩
  | ecallInitialize context => exact ecallInitialize_hands context hfresh
  | ecallDepositAndInput depositTransaction input =>
    simp only [handle, ecallDepositAndInput, setState, wp_bind, wp_get, wp_ite, wp_pure, wp_modify]
    refine ⟨fun _ => ⟨by simp, by simp⟩, fun _ => ?_⟩
    exact recorded_quiet (fun _ h => h) (ecallDepositAndInputImpl_within _ _ _) ⟨_, rfl⟩
      fun _ _ _ _ => ⟨by simp, by simp⟩
  | ecallGetDeposits context =>
    simp only [handle, ecallGetDeposits, setState, wp_bind, wp_get, wp_ite, wp_pure, wp_modify]
    refine ⟨fun _ => ⟨by simp, by simp⟩, fun hstate => ?_⟩
    exact wp_mono (fun _ _ _ _ => ⟨by simp, by simp⟩)
      (ecallGetDepositsImpl_hands context (not_not.mp hstate))
  | ecallConfirmDeposits =>
    simp only [handle, ecallConfirmDeposits, setState, wp_bind, wp_get, wp_ite, wp_pure, wp_modify]
    refine ⟨fun _ => ⟨by simp, by simp⟩, fun _ => ?_⟩
    exact recorded_quiet (fun _ h => h) ecallConfirmDepositsImpl_permitted ⟨_, rfl⟩
      fun _ _ _ _ => ⟨by simp, by simp⟩
  | ecallSettle context blocks =>
    simp only [handle, ecallSettle, setState, wp_bind, wp_get, wp_ite, wp_pure, wp_modify]
    refine ⟨fun _ => ⟨by simp, fun _ _ _ => List.not_mem_nil⟩, fun hstate => ?_⟩
    have hopen : before.state = .confirmedDeposits ∨ before.state = .refunded := by tauto
    refine wp_mono ?_ (ecallSettleImpl_hands hdelay context blocks hopen)
    intro ret last events hquiet
    exact ⟨fun _ => ⟨by simp, fun _ => hquiet⟩, fun _ => ⟨by simp, fun _ => hquiet⟩⟩
  | ecallRefund context blocks =>
    simp only [handle, ecallRefund, setState, wp_bind, wp_get, wp_ite, wp_pure, wp_modify]
    refine ⟨fun _ => ⟨by simp, by simp⟩, fun hstate => ?_⟩
    refine wp_mono ?_ (ecallRefundImpl_hands context blocks hstate)
    exact fun _ _ _ _ => ⟨fun _ => ⟨by simp, by simp⟩, fun _ => ⟨by simp, by simp⟩⟩

end Ecalls

section Steps
variable {dep : Deployment} {step : Step (enclave dep)}
variable (hdelay : 0 < dep.build.settleDelayBlocks)
variable (hfresh : step.before.state = .uninitialized → step.before.payoutWallet = none)
include hdelay hfresh

theorem left_of_valid (valid : step.Valid) {ret : Int32} (hret : step.result = some ret) :
    Left step.op step.before ret step.after step.events := by
  obtain ⟨before, op, events, last, result⟩ := step
  cases hret
  exact Exec.recorded valid (handle_hands hdelay op hfresh)

/-- What a step hands out it may hand out. -/
theorem handed_of_valid (valid : step.Valid) {output : Callback}
    {mid rest : List (Event (Call Callback))}
    (hevents : step.events = mid ++ .issued (.callback output) :: rest) :
    Handed dep step.op step.before mid output := by
  obtain ⟨before, op, events, last, result⟩ := step
  exact Exec.demanded valid (handle_hands hdelay op hfresh) hevents

end Steps

section Runs
variable {dep : Deployment}

/-- The payout key has been handed out. -/
def Settles (step : Step (enclave dep)) : Prop :=
  ∃ context payoutKey output length,
    .issued (.callback (.ocallSettle context payoutKey output length)) ∈ step.events

/-- Where the wallets come from, and what a settlement leads to. -/
structure Inv (steps : List (Step (enclave dep))) (globals : Globals) : Prop where
  fresh : globals.state = .uninitialized → globals.payoutWallet = none
  depositWallet : ∀ wallet, globals.depositWallet = some wallet → ∃ init ∈ steps,
    Made init.events wallet ∧ ∃ context depositAddress,
      ExportsAddress init.events wallet depositAddress ∧
      .issued (.callback (.ocallInitialize context depositAddress)) ∈ init.events
  payoutWallet : ∀ wallet, globals.payoutWallet = some wallet → ∃ init ∈ steps,
    Made init.events wallet
  settled : ∀ step ∈ steps, Settles step → globals.state = .settled

theorem uninitialized_of_next {state : State} {op : Ecall} {ret : Int32}
    (h : nextState state op ret = .uninitialized) : state = .uninitialized ∧
      ((∃ context, op = .ecallInitialize context) → ret ≠ 0) := by
  by_cases hret : ret = 0
  all_goals cases op
  all_goals cases state
  all_goals simp_all [nextState]

theorem Handed.unsettled {op : Ecall} {before : Globals} {events : List (Event (Call Callback))}
    {output : Callback} (h : Handed dep op before events output) : before.state ≠ .settled := by
  intro hsettled
  cases output with
  | ocallInitialize context depositAddress => cases hsettled.symm.trans h.2.1
  | ocallGetDeposits context depositTransaction => cases hsettled.symm.trans h.2.1
  | ocallSettle context payoutKey output length =>
    rcases h.2.1 with hstate | hstate
    · cases hsettled.symm.trans hstate
    · cases hsettled.symm.trans hstate
  | ocallRefund context depositKey => exact h.2.1 hsettled

section Steps
variable {steps : List (Step (enclave dep))} {step : Step (enclave dep)}

theorem depositWallet_kept (h : Inv steps step.before)
    (hkept : RetainedOutput.WalletsKept step.before step.after) {wallet : Wallet}
    (hwallet : step.after.depositWallet = some wallet) : ∃ init ∈ steps ++ [step],
      Made init.events wallet ∧ ∃ context depositAddress,
        ExportsAddress init.events wallet depositAddress ∧
        .issued (.callback (.ocallInitialize context depositAddress)) ∈ init.events := by
  obtain ⟨init, hinit, hmade⟩ := h.depositWallet wallet (hkept.1.symm.trans hwallet)
  exact ⟨init, List.mem_append_left _ hinit, hmade⟩

theorem payoutWallet_kept (h : Inv steps step.before)
    (hkept : RetainedOutput.WalletsKept step.before step.after) {wallet : Wallet}
    (hwallet : step.after.payoutWallet = some wallet) : ∃ init ∈ steps ++ [step],
      Made init.events wallet := by
  obtain ⟨init, hinit, hmade⟩ := h.payoutWallet wallet (hkept.2.symm.trans hwallet)
  exact ⟨init, List.mem_append_left _ hinit, hmade⟩

variable (hdelay : 0 < dep.build.settleDelayBlocks)
include hdelay

/-- A call that has handed out the payout key succeeds. -/
theorem settled_next (h : Inv steps step.before) (valid : step.Valid) {ret : Int32}
    (hret : step.result = some ret) {settle : Step (enclave dep)} (hsettle : settle ∈ steps ++ [step])
    (hsettles : Settles settle) : step.after.state = .settled := by
  have hmoved := OneSignature.step_moved valid hret
  rw [hmoved.state]
  rcases List.mem_append.mp hsettle with hsettle | hsettle
  · rw [h.settled settle hsettle hsettles]
    exact OneSignature.nextState_settled _ _
  · rw [List.mem_singleton.mp hsettle] at hsettles
    obtain ⟨context, payoutKey, output, length, hissued⟩ := hsettles
    obtain ⟨mid, rest, hevents⟩ := List.append_of_mem hissued
    obtain ⟨⟨blocks, hop, -⟩, -⟩ := handed_of_valid hdelay h.fresh valid hevents
    have hleft := left_of_valid hdelay h.fresh valid hret
    have hzero : ret = 0 := by
      by_contra hfailed
      exact hleft.settled ⟨context, blocks, hop⟩ hfailed _ hissued
    have haccepted := hmoved.accepted hzero
    rw [hop] at haccepted ⊢
    rw [hzero]
    exact OneSignature.settled_of_settles haccepted

theorem step_inv (h : Inv steps step.before) (valid : step.Valid) (finished : step.result.isSome) :
    Inv (steps ++ [step]) step.after := by
  obtain ⟨ret, hret⟩ := Option.isSome_iff_exists.mp finished
  have hmoved := OneSignature.step_moved valid hret
  have hfresh : step.after.state = .uninitialized → step.before.state = .uninitialized ∧
      ((∃ context, step.op = Ecall.ecallInitialize context) → ret ≠ (0 : Int32)) := by
    intro hstate
    rw [hmoved.state] at hstate
    exact uninitialized_of_next hstate
  have hsettled : ∀ settle ∈ steps ++ [step], Settles settle → step.after.state = .settled :=
    fun _ hsettle hsettles => settled_next hdelay h valid hret hsettle hsettles
  have hold : RetainedOutput.WalletsKept step.before step.after → Inv (steps ++ [step]) step.after :=
    fun hkept => {
      fresh := fun hstate => hkept.2.trans (h.fresh (hfresh hstate).1)
      depositWallet := fun _ hwallet => depositWallet_kept h hkept hwallet
      payoutWallet := fun _ hwallet => payoutWallet_kept h hkept hwallet
      settled := hsettled }
  by_cases hinitialize : ∃ context, step.op = Ecall.ecallInitialize context
  · have hleft := left_of_valid hdelay h.fresh valid hret
    rcases hleft.initialized hinitialize with ⟨_, hleaves⟩ | hsame
    · constructor
      · exact fun hstate => hleaves.failed ((hfresh hstate).2 hinitialize)
      · exact fun wallet hwallet => ⟨step, by simp, hleaves.depositWallet wallet hwallet⟩
      · exact fun wallet hwallet => ⟨step, by simp, hleaves.payoutWallet wallet hwallet⟩
      · exact hsettled
    · refine hold ?_
      rw [hsame]
      exact ⟨rfl, rfl⟩
  · exact hold ((RetainedOutput.step_touches valid).wallets
      fun context hop => hinitialize ⟨context, hop⟩)

end Steps

theorem inv_initial : Inv ([] : List (Step (enclave dep))) initial where
  fresh _ := rfl
  depositWallet _ hwallet := by simp [initial] at hwallet
  payoutWallet _ hwallet := by simp [initial] at hwallet
  settled _ := by simp

section Releases
variable {steps : List (Step (enclave dep))} {last : Globals}
variable (hdelay : 0 < dep.build.settleDelayBlocks)
variable (trace : Trace (enclave dep) initial steps last)
include hdelay trace

theorem trace_inv :
    Throughout (fun earlier step => Inv earlier step.before ∧ step.Valid ∧ True) steps :=
  trace.throughout (fun _ _ _ _ => trivial) inv_initial
    fun _ _ hinv valid finished _ => step_inv hdelay hinv valid finished

variable {earlier later : List (Step (enclave dep))} {step : Step (enclave dep)}
variable (hsplit : steps = earlier ++ step :: later)
include hsplit

/-- Whatever is handed out was made or received before. -/
theorem released_before {output : Callback} {mid rest : List (Event (Call Callback))}
    (hevents : step.events = mid ++ .issued (.callback output) :: rest) :
    Handed dep step.op step.before mid output ∧ Backed earlier step.before := by
  obtain ⟨hinv, valid, -⟩ := trace_inv hdelay trace earlier step later hsplit
  exact ⟨handed_of_valid hdelay hinv.fresh valid hevents, hinv.depositWallet, hinv.payoutWallet,
    fun _ houtput => RetainedOutput.retained_before trace hsplit houtput⟩

/-- After the payout key nothing is handed out. -/
theorem quiet_after (hsettles : Settles step) {other : Step (enclave dep)} (hother : other ∈ later) :
    Quiet other.events := by
  intro output hissued
  obtain ⟨between, others, rfl⟩ := List.append_of_mem hother
  obtain ⟨hinv, valid, -⟩ := trace_inv hdelay trace (earlier ++ step :: between) other others
    (by simp [hsplit])
  obtain ⟨mid, rest, hevents⟩ := List.append_of_mem hissued
  exact (handed_of_valid hdelay hinv.fresh valid hevents).unsettled
    (hinv.settled step (by simp) hsettles)

end Releases

/-- In every run, whatever the enclave hands out was made or received before in it, and is handed
out in its state and on its evidence; after the payout key nothing is handed out any more. -/
theorem player_releases (dep : Deployment) (hdelay : 0 < dep.build.settleDelayBlocks)
    {steps : List (Step (enclave dep))} {last : Globals}
    (trace : Trace (enclave dep) initial steps last) {earlier later : List (Step (enclave dep))}
    {step : Step (enclave dep)} (hsplit : steps = earlier ++ step :: later) {output : Callback}
    {mid rest : List (Event (Call Callback))}
    (hevents : step.events = mid ++ .issued (.callback output) :: rest) :
    Handed dep step.op step.before mid output ∧ Backed earlier step.before ∧
      ∀ other ∈ later, Settles step → Quiet other.events := by
  obtain ⟨hhanded, hbacked⟩ := released_before hdelay trace hsplit hevents
  exact ⟨hhanded, hbacked, fun _ hother hsettles =>
    quiet_after hdelay trace hsplit hsettles hother⟩

end Runs

section Examples
open Blocks (zeroBlocks zeroBlocks_buried)

/-- The contract, and a settlement on a chain of 81 blocks. -/
theorem settlement_run : ∃ step : Step (enclave zeroDeployment),
    Run (enclave zeroDeployment) initial (contractSteps ++ [step]) step.after ∧
      step.before = contractState ∧ step.op = .ecallSettle 0 (zeroBlocks 80) ∧
      .issued (.callback (.ocallSettle 0 (List.replicate 32 0) (some [9]) 1)) ∈ step.events := by
  have htxid : contractState.settlementTxid = FixedBytes.zero 32 := by decide +kernel
  have houtput : contractState.functionalityOutput = some ⟨1, [9]⟩ := by decide +kernel
  have hlength : contractState.functionalityOutputLength = 1 := by decide +kernel
  have hwallet : contractState.depositWallet = some ⟨1, 1, 1⟩ := by decide +kernel
  have hpayout : contractState.payoutWallet = some ⟨1, 1, 1⟩ := by decide +kernel
  have hstate : contractState.state = .confirmedDeposits := by decide +kernel
  have hburied : (Blocks.zcashAuthorizedAndBuried zeroDeployment.crates zeroDeployment.build
      contractState.settlementTxid (zeroBlocks 80)).outcome = .returned (Int32.ofNat 80) := by
    rw [htxid]
    exact zeroBlocks_buried 80
  obtain ⟨step, hvalid, hbefore, hop, hresult, -, hissued⟩ := ecallSettle_releases 0 (.inl hstate)
    hburied (by decide) hwallet hpayout (FixedBytes.zero 32)
  rw [houtput, hlength] at hissued
  have hrun := Run.next (hbefore ▸ contractSteps_run) hvalid (by rw [hresult]; rfl)
  exact ⟨step, hrun, hbefore, hop, hissued⟩

theorem player_releases_settled : ∃ mid,
    Handed zeroDeployment (.ecallSettle 0 (zeroBlocks 80)) contractState mid
      (.ocallSettle 0 (List.replicate 32 0) (some [9]) 1) ∧
    Backed contractSteps contractState := by
  obtain ⟨step, hrun, hbefore, hop, hissued⟩ := settlement_run
  obtain ⟨mid, rest, hevents⟩ := List.append_of_mem hissued
  obtain ⟨hhanded, hbacked, -⟩ := player_releases zeroDeployment (by decide) (.resting hrun) rfl
    hevents
  rw [hop, hbefore] at hhanded
  rw [hbefore] at hbacked
  exact ⟨mid, hhanded, hbacked⟩

end Examples

end Auntie.Guarantees.PlayerReleases
