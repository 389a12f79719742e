import Auntie.Source.Player.Setup

/-!
# Contract of the player's enclave

Embeds `player/trusted/core.c:19-366`: what the ECALLs of the contract phase do once
`entry.c` has checked the state.
-/

namespace Auntie.Source.Player
open Auntie.Interaction
open Blocks (Digest)

section Wallets

/-- Both wallets are released and forgotten. -/
def dropWallets (depositWallet payoutWallet : Wallet) : Code Unit := do
  zcashReleaseWallet depositWallet
  zcashReleaseWallet payoutWallet
  modify fun globals => { globals with depositWallet := none, payoutWallet := none }

def ecallInitializeImpl (context : Pointer) : Code Int32 := do
  let depositWallet ← zcashCreateWallet
  modify fun globals => { globals with depositWallet := depositWallet }
  let some depositWallet := depositWallet | return -enomem
  let payoutWallet ← zcashCreateWallet
  modify fun globals => { globals with payoutWallet := payoutWallet }
  let some payoutWallet := payoutWallet | do
    zcashReleaseWallet depositWallet
    modify fun globals => { globals with depositWallet := none }
    return -enomem
  match ← zcashExportAddress depositWallet.address with
  | .error ret =>
    dropWallets depositWallet payoutWallet
    return ret
  | .ok depositAddress =>
    let ret ← issue (.callback (.ocallInitialize context depositAddress.contents))
    issue (.free depositAddress.address)
    if ret ≠ 0 then
      dropWallets depositWallet payoutWallet
    return ret

end Wallets

section DepositAndInput
variable (build : Build)

def releaseAdvice (advice : Pointer) : Code Unit := do
  issue (.zcashReleaseAdvice advice)
  modify fun globals => { globals with depositAdvice := none }

/-- The message to the operator and its delivery. -/
def sendDeposit (depositAmount : Nat) (depositTransaction input : Bytes)
    (payoutAddress rawAdvice : Buffer) (advice : Pointer) : Code Int32 := do
  let payload := DepositAndInput.encode depositAmount depositTransaction input
    payoutAddress.contents rawAdvice.contents
  let some msg ← issue (.malloc (sizeofMessageHeader + payload.length % 2 ^ 32)) | do
    issue (.free payoutAddress.address)
    issue (.free rawAdvice.address)
    releaseAdvice advice
    return -enomem
  let operator ← deref (← get).operator
  let ret ← issue (.auntieMsgSend (.ofPayload msgDepositAndInput payload) operator.channel)
  issue (.free msg)
  issue (.free payoutAddress.address)
  issue (.free rawAdvice.address)
  if ret ≠ 0 then
    releaseAdvice advice
    return ret
  return 0

def ecallDepositAndInputImpl (depositTransaction input : Bytes) : Code Int32 := do
  let some tx ← issue (.zcashImportTransaction depositTransaction) | return -einval
  let depositWallet ← deref (← get).depositWallet
  let depositAmount ← issue (.zcashDepositedAmount tx depositWallet.key)
  issue (.zcashReleaseTransaction tx)
  if depositAmount < build.minerFeePerParty + build.operatorFeePerPlayer then
    return -einval
  let payoutWallet ← deref (← get).payoutWallet
  match ← zcashExportAddress payoutWallet.address with
  | .error ret => return ret
  | .ok payoutAddress =>
    let depositAdvice ← issue (.zcashCreateAdvice depositWallet.key)
    modify fun globals => { globals with depositAdvice := depositAdvice }
    let some advice := depositAdvice | do
      issue (.free payoutAddress.address)
      return -efault
    match ← zcashExportAdvice advice with
    | .error ret =>
      issue (.free payoutAddress.address)
      releaseAdvice advice
      return ret
    | .ok rawAdvice =>
      sendDeposit depositAmount depositTransaction input payoutAddress rawAdvice advice

end DepositAndInput

section GetDeposits
variable (build : Build)

/-- The callbacks for the deposit transactions at the given indices: an error code, or none. -/
def outputDeposits (context : Pointer) (msg : ReceivedMessage) : List Nat → Code (Option Int32)
  | [] => return none
  | i :: rest => do
    let ret ← issue (.callback (.ocallGetDeposits context
      (ClearContract.depositTransaction build.numPlayers msg i)))
    if ret ≠ 0 then
      return some ret
    outputDeposits context msg rest

def dropOutput (output : Buffer) : Code Unit := do
  issue (.free output.address)
  modify fun globals => { globals with functionalityOutput := none }

/-- The deposits of the first `numPlayers` parties in a loop, that of the last player after it.
Only the loop reports the error of a callback. -/
def outputAllDeposits (context : Pointer) (msg : ReceivedMessage) (output : Buffer) :
    Code Int32 := do
  if let some ret ← outputDeposits build context msg (List.range build.numPlayers) then
    issue (.free msg.address)
    dropOutput output
    return ret
  let ret ← issue (.callback (.ocallGetDeposits context
    (ClearContract.lastDepositTransaction build.numPlayers msg)))
  issue (.free msg.address)
  if ret ≠ 0 then
    dropOutput output
  return 0

def ecallGetDepositsImpl (context : Pointer) : Code Int32 := do
  let operator ← deref (← get).operator
  let some msg ← issue (.auntieMsgReceive operator.channel) | return -eio
  if msg.msgType ≠ msgClearContract then
    issue (.free msg.address)
    return -eio
  modify fun globals => { globals with
    settlementSighash := ClearContract.settlementSighash msg
    settlementTxid := ClearContract.settlementTxid msg
    functionalityOutputLength := ClearContract.outputLength msg }
  let address ← issue (.malloc (ClearContract.outputLength msg))
  let some address := address | do
    modify fun globals => { globals with functionalityOutput := none }
    issue (.free msg.address)
    return -enomem
  let output : Buffer := ⟨address, ClearContract.output build.numPlayers msg⟩
  modify fun globals => { globals with functionalityOutput := some output }
  outputAllDeposits build context msg output

end GetDeposits

def ecallConfirmDepositsImpl : Code Int32 := do
  let globals ← get
  let depositWallet ← deref globals.depositWallet
  let advice ← deref globals.depositAdvice
  let signature ← issue (.zcashSignTransaction depositWallet.key advice globals.settlementSighash)
  releaseAdvice advice
  let some signature := signature | return -efault
  let exported ← zcashExportSignature signature
  issue (.zcashReleaseSignature signature)
  match exported with
  | .error ret => return ret
  | .ok rawSignature =>
    let payload := ConfirmDeposits.encode rawSignature.contents
    let some msg ← issue (.malloc (sizeofMessageHeader + payload.length)) | do
      issue (.free rawSignature.address)
      return -enomem
    let operator ← deref (← get).operator
    let ret ← issue (.auntieMsgSend (.ofPayload msgConfirmDeposits payload) operator.channel)
    issue (.free msg)
    issue (.free rawSignature.address)
    return ret

section Release
variable (dep : Deployment)

/-- Whatever the callback returns, the call succeeds. -/
def ecallSettleImpl (context : Pointer) (blocks : Bytes) : Code Int32 := do
  let globals ← get
  let _ ← deref globals.depositWallet
  let count ← chainVerifier (Blocks.zcashAuthorizedAndBuried dep.crates dep.build
    globals.settlementTxid blocks).outcome
  if let some error := chainError dep.build.settleDelayBlocks count then
    return error
  let payoutWallet ← deref globals.payoutWallet
  match ← zcashExportKey payoutWallet.key with
  | .error ret => return ret
  | .ok payoutKey =>
    let _ ← issue (.callback (.ocallSettle context payoutKey.contents
      (globals.functionalityOutput.map Buffer.contents) globals.functionalityOutputLength))
    issue (.free payoutKey.address)
    return 0

/-- Whatever the callback returns, the call succeeds. -/
def ecallRefundImpl (context : Pointer) (blocks : Bytes) : Code Int32 := do
  if let some error := chainError dep.build.refundDelayBlocks
      (Blocks.zcashBlocksSinceCheckpoint dep.crates dep.build blocks) then
    return error
  let depositWallet ← deref (← get).depositWallet
  match ← zcashExportKey depositWallet.key with
  | .error ret => return ret
  | .ok depositKey =>
    let _ ← issue (.callback (.ocallRefund context depositKey.contents))
    issue (.free depositKey.address)
    return 0

end Release

section Frame
open Program (Within)
variable {before : Globals}

def WalletsOnly (before last : Globals) : Prop :=
  ∃ depositWallet payoutWallet,
    last = { before with depositWallet := depositWallet, payoutWallet := payoutWallet }

theorem WalletsOnly.set {before last : Globals} (h : WalletsOnly before last)
    (depositWallet payoutWallet : Option Wallet) : WalletsOnly before
      { last with depositWallet := depositWallet, payoutWallet := payoutWallet } := by
  obtain ⟨_, _, rfl⟩ := h
  exact ⟨depositWallet, payoutWallet, rfl⟩

def AdviceOnly (before last : Globals) : Prop :=
  ∃ depositAdvice, last = { before with depositAdvice := depositAdvice }

theorem AdviceOnly.set {before last : Globals} (h : AdviceOnly before last)
    (depositAdvice : Option Pointer) :
    AdviceOnly before { last with depositAdvice := depositAdvice } := by
  obtain ⟨_, rfl⟩ := h
  exact ⟨depositAdvice, rfl⟩

def OutputOnly (before last : Globals) : Prop :=
  ∃ functionalityOutput functionalityOutputLength settlementSighash settlementTxid,
    last = { before with
      functionalityOutput := functionalityOutput
      functionalityOutputLength := functionalityOutputLength
      settlementSighash := settlementSighash
      settlementTxid := settlementTxid }

theorem OutputOnly.output {before last : Globals} (h : OutputOnly before last)
    (functionalityOutput : Option Buffer) :
    OutputOnly before { last with functionalityOutput := functionalityOutput } := by
  obtain ⟨_, _, _, _, rfl⟩ := h
  exact ⟨_, _, _, _, rfl⟩

theorem OutputOnly.set {before last : Globals} (h : OutputOnly before last)
    (functionalityOutputLength : Nat) (settlementSighash settlementTxid : Digest) :
    OutputOnly before { last with
      functionalityOutputLength := functionalityOutputLength
      settlementSighash := settlementSighash
      settlementTxid := settlementTxid } := by
  obtain ⟨_, _, _, _, rfl⟩ := h
  exact ⟨_, _, _, _, rfl⟩

abbrev initializePermits : Permits Callback where
  outputs
    | .ocallInitialize _ _ => True
    | _ => False

abbrev depositPermits : Permits Callback where
  messages := True

abbrev getDepositsPermits : Permits Callback where
  outputs
    | .ocallGetDeposits _ _ => True
    | _ => False
  messages := True

abbrev confirmPermits : Permits Callback where
  messages := True
  signs := True

abbrev settlePermits : Permits Callback where
  outputs
    | .ocallSettle _ _ _ _ => True
    | _ => False

abbrev refundPermits : Permits Callback where
  outputs
    | .ocallRefund _ _ => True
    | _ => False

theorem dropWallets_within (depositWallet payoutWallet : Wallet) :
    (dropWallets depositWallet payoutWallet).Within (Call.Permitted initializePermits)
      (WalletsOnly before) := by
  refine Within.bind (zcashReleaseWallet_within _) fun _ => ?_
  refine Within.bind (zcashReleaseWallet_within _) fun _ => ?_
  exact Within.update fun _ h => h.set none none

theorem ecallInitializeImpl_within (context : Pointer) :
    (ecallInitializeImpl context).Within (Call.Permitted initializePermits)
      (WalletsOnly before) := by
  unfold ecallInitializeImpl zcashExportAddress
  repeat' with_reducible first
    | apply zcashCreateWallet_within
    | apply zcashReleaseWallet_within
    | apply dropWallets_within
    | apply zcashExport_within
    | intro _
    | apply Within.issue
    | apply Within.value
    | apply Within.update
    | apply Within.bind
    | split
  all_goals first | trivial | exact WalletsOnly.set ‹_› _ _

theorem releaseAdvice_within {allowed : {β : Type} → Call Callback β → Prop} {advice : Pointer}
    (hrelease : allowed (.zcashReleaseAdvice advice)) :
    (releaseAdvice advice).Within allowed (AdviceOnly before) :=
  Within.bind (Within.issue hrelease) fun _ => Within.update fun _ h => h.set none

theorem sendDeposit_within (depositAmount : Nat) (depositTransaction input : Bytes)
    (payoutAddress rawAdvice : Buffer) (advice : Pointer) :
    (sendDeposit depositAmount depositTransaction input payoutAddress rawAdvice advice).Within
      (Call.Permitted depositPermits) (AdviceOnly before) := by
  unfold sendDeposit
  repeat' with_reducible first
    | apply releaseAdvice_within
    | apply deref_within
    | intro _
    | apply Within.issue
    | apply Within.value
    | apply Within.get_bind
    | apply Within.bind
    | split
  all_goals trivial

theorem ecallDepositAndInputImpl_within (build : Build) (depositTransaction input : Bytes) :
    (ecallDepositAndInputImpl build depositTransaction input).Within
      (Call.Permitted depositPermits) (AdviceOnly before) := by
  unfold ecallDepositAndInputImpl zcashExportAddress zcashExportAdvice
  repeat' with_reducible first
    | apply sendDeposit_within
    | apply releaseAdvice_within
    | apply zcashExport_within
    | apply deref_within
    | intro _
    | apply Within.issue
    | apply Within.value
    | apply Within.get_bind
    | apply Within.update
    | apply Within.bind
    | split
  all_goals first | trivial | exact AdviceOnly.set ‹_› _

section Outputs
variable {allowed : {β : Type} → Call Callback β → Prop} {keeps : Globals → Prop}
variable (houtput : ∀ context depositTransaction,
  allowed (.callback (.ocallGetDeposits context depositTransaction)))
variable (hfree : ∀ address, allowed (.free address))
variable (hdrop : ∀ last : Globals, keeps last → keeps { last with functionalityOutput := none })

include houtput in
theorem outputDeposits_within (build : Build) (context : Pointer) (msg : ReceivedMessage)
    (indices : List Nat) : (outputDeposits build context msg indices).Within allowed keeps := by
  induction indices with
  | nil => exact Within.value _
  | cons i rest ih =>
    refine Within.bind (Within.issue (houtput _ _)) fun ret => ?_
    split
    · exact Within.value _
    · exact ih

include hfree hdrop in
theorem dropOutput_within (output : Buffer) : (dropOutput output).Within allowed keeps :=
  Within.bind (Within.issue (hfree _)) fun _ => Within.update hdrop

include houtput hfree hdrop in
/-- Once the message is stored, the enclave calls back and frees what it holds. -/
theorem outputAllDeposits_within (build : Build) (context : Pointer) (msg : ReceivedMessage)
    (output : Buffer) : (outputAllDeposits build context msg output).Within allowed keeps := by
  unfold outputAllDeposits
  repeat' with_reducible first
    | exact outputDeposits_within houtput _ _ _ _
    | exact dropOutput_within hfree hdrop _
    | exact Within.issue (hfree _)
    | exact Within.issue (houtput _ _)
    | intro _
    | apply Within.value
    | apply Within.bind
    | split

variable (hinternal : ∀ {β : Type} (c : Call Callback β), c.Internal → allowed c)

include houtput hinternal in
theorem ecallGetDepositsImpl_within (hreceive : ∀ channel, allowed (.auntieMsgReceive channel))
    (build : Build) (context : Pointer) :
    (ecallGetDepositsImpl build context).Within allowed (OutputOnly before) := by
  have hfree : ∀ address, allowed (.free address) := fun _ => hinternal _ trivial
  have hfault : allowed .fault := hinternal _ trivial
  unfold ecallGetDepositsImpl
  repeat' with_reducible first
    | exact outputAllDeposits_within houtput hfree (fun _ h => h.output none) _ _ _ _
    | exact deref_within hfault _
    | exact Within.issue (hreceive _)
    | intro _
    | apply Within.issue
    | apply Within.value
    | apply Within.get_bind
    | apply Within.update
    | apply Within.bind
    | split
  all_goals first
    | exact hinternal _ trivial
    | exact OutputOnly.output ‹_› _
    | exact OutputOnly.set ‹_› _ _ _

include hinternal in
theorem ecallConfirmDepositsImpl_within
    (hsign : ∀ key advice sighash, allowed (.zcashSignTransaction key advice sighash))
    (hsend : ∀ payload channel,
      allowed (.auntieMsgSend (.ofPayload msgConfirmDeposits payload) channel)) :
    ecallConfirmDepositsImpl.Within allowed (AdviceOnly before) := by
  have hfault : allowed .fault := hinternal _ trivial
  unfold ecallConfirmDepositsImpl zcashExportSignature
  repeat' with_reducible first
    | apply releaseAdvice_within
    | apply zcashExport_within
    | exact deref_within hfault _
    | exact Within.issue (hsign _ _ _)
    | exact Within.issue (hsend _ _)
    | intro _
    | apply Within.issue
    | apply Within.value
    | apply Within.get_bind
    | apply Within.bind
    | split
  all_goals exact hinternal _ trivial

end Outputs

theorem ecallGetDepositsImpl_permitted (build : Build) (context : Pointer) :
    (ecallGetDepositsImpl build context).Within (Call.Permitted getDepositsPermits)
      (OutputOnly before) :=
  ecallGetDepositsImpl_within (fun _ _ => trivial) (fun _ hc => hc.permitted getDepositsPermits)
    (fun _ => trivial) build context

theorem ecallConfirmDepositsImpl_permitted :
    ecallConfirmDepositsImpl.Within (Call.Permitted confirmPermits) (AdviceOnly before) :=
  ecallConfirmDepositsImpl_within (fun _ hc => hc.permitted confirmPermits)
    (fun _ _ _ => trivial) fun _ _ => trivial

variable {dep : Deployment}

theorem ecallSettleImpl_within (context : Pointer) (blocks : Bytes) :
    (ecallSettleImpl dep context blocks).Within (Call.Permitted settlePermits) (before = ·) := by
  unfold ecallSettleImpl zcashExportKey
  repeat' with_reducible first
    | apply chainVerifier_within
    | apply zcashExport_within
    | apply deref_within
    | intro _
    | apply Within.issue
    | apply Within.value
    | apply Within.get_bind
    | apply Within.bind
    | split
  all_goals trivial

theorem ecallRefundImpl_within (context : Pointer) (blocks : Bytes) :
    (ecallRefundImpl dep context blocks).Within (Call.Permitted refundPermits) (before = ·) := by
  unfold ecallRefundImpl zcashExportKey
  repeat' with_reducible first
    | apply zcashExport_within
    | apply deref_within
    | intro _
    | apply Within.issue
    | apply Within.value
    | apply Within.get_bind
    | apply Within.bind
    | split
  all_goals trivial

variable {M : Type*} {mon : Monitor (Call Callback) Globals M} {globals : Globals} {m : M}

/-- A chain that does not pass the check is refused before anything is released. -/
theorem ecallSettleImpl_refused {context : Pointer} {blocks : Bytes}
    (h : ∀ count, (Blocks.zcashAuthorizedAndBuried dep.crates dep.build globals.settlementTxid
      blocks).outcome = .returned count → chainError dep.build.settleDelayBlocks count ≠ none)
    (hfault : mon.safe globals m .fault) {post : Int32 → Globals → M → Prop}
    (hpost : ∀ error, error ≠ 0 → post error globals m) :
    wp mon post (ecallSettleImpl dep context blocks) globals m := by
  simp only [ecallSettleImpl, wp_bind, wp_get]
  cases globals.depositWallet with
  | none => exact wp_deref_none.mpr hfault
  | some depositWallet =>
    rw [wp_deref_some]
    cases houtcome : (Blocks.zcashAuthorizedAndBuried dep.crates dep.build
        globals.settlementTxid blocks).outcome with
    | panicked => exact wp_fault.mpr hfault
    | returned count =>
      simp only [chainVerifier, wp_pure]
      cases hchain : chainError dep.build.settleDelayBlocks count with
      | none => exact absurd hchain (h count houtcome)
      | some error => exact hpost error (chainError_ne_zero hchain)

/-- A chain that does not pass the check is refused before anything is released. -/
theorem ecallRefundImpl_refused {context : Pointer} {blocks : Bytes} {error : Int32}
    (h : chainError dep.build.refundDelayBlocks
      (Blocks.zcashBlocksSinceCheckpoint dep.crates dep.build blocks) = some error) :
    ecallRefundImpl dep context blocks = pure error := by
  rw [ecallRefundImpl, h]

end Frame

end Auntie.Source.Player
