import Auntie.Source.Operator.Functionality

/-!
# Contract of the operator's enclave

Embeds `operator/trusted/core.c`: what the ECALLs of the contract phase do once
`entry.c` has checked the state.
-/

namespace Auntie.Source.Operator
open Auntie.Interaction
open Blocks (Digest)

def ecallInitializeImpl (context : Pointer) : Code Int32 := do
  let depositWallet ← zcashCreateWallet
  modify fun globals => { globals with depositWallet := depositWallet }
  let some depositWallet := depositWallet | return -enomem
  match ← zcashExportAddress depositWallet.address with
  | .error ret =>
    zcashReleaseWallet depositWallet
    modify fun globals => { globals with depositWallet := none }
    return ret
  | .ok depositAddress =>
    let ret ← issue (.callback (.ocallInitialize context depositAddress.contents))
    issue (.free depositAddress.address)
    if ret ≠ 0 then
      zcashReleaseWallet depositWallet
      modify fun globals => { globals with depositWallet := none }
    return ret

section ClearContract
variable (build : Build)

/-- The local arrays of `ecall_clear_contract_impl`, each filled from the front. The
operator's entries come first where there are `AUNTIE_NUM_PLAYERS + 1`. -/
structure Collected where
  payoutAddresses : List Pointer := []
  advices : List Pointer := []
  depositTransactions : List Pointer := []
  depositAmounts : List Nat := []
  rawDepositTransactions : List Buffer := []
  inputs : List Buffer := []
  outputs : List Buffer := []

namespace Collected
variable (collected : Collected)

def addTransaction (transaction : Pointer) : Collected :=
  { collected with depositTransactions := collected.depositTransactions ++ [transaction] }

def addRawTransaction (raw : Buffer) : Collected :=
  { collected with rawDepositTransactions := collected.rawDepositTransactions ++ [raw] }

def addAmount (depositAmount : Nat) : Collected :=
  { collected with depositAmounts := collected.depositAmounts ++ [depositAmount] }

def addInput (input : Buffer) : Collected :=
  { collected with inputs := collected.inputs ++ [input] }

def addPayoutAddress (payoutAddress : Pointer) : Collected :=
  { collected with payoutAddresses := collected.payoutAddresses ++ [payoutAddress] }

def addAdvice (advice : Pointer) : Collected :=
  { collected with advices := collected.advices ++ [advice] }

end Collected

/-- The payout address and the advice of one player. -/
def decodeParty (msg : ReceivedMessage) (collected : Collected) : Code (Int32 × Collected) := do
  let some payoutAddress ← issue (.zcashImportAddress (DepositAndInput.payoutAddress msg)) | do
    issue (.free msg.address)
    return (-einval, collected)
  let some advice ← issue (.zcashImportAdvice (DepositAndInput.advice msg)) | do
    issue (.free msg.address)
    return (-einval, collected.addPayoutAddress payoutAddress)
  issue (.free msg.address)
  return (0, (collected.addPayoutAddress payoutAddress).addAdvice advice)

/-- The deposited amount less the fees, and the input. A deposit that does not cover the fees
leaves the message allocated. -/
def decodeInput (msg : ReceivedMessage) (collected : Collected) : Code (Int32 × Collected) := do
  if DepositAndInput.depositAmount msg < build.minerFeePerParty + build.operatorFeePerPlayer then
    return (-einval, collected)
  let some input ← issue (.malloc (DepositAndInput.inputLength msg)) | do
    issue (.free msg.address)
    return (-enomem, collected)
  decodeParty msg ((collected.addAmount (sub64 (sub64 (DepositAndInput.depositAmount msg)
    build.minerFeePerParty) build.operatorFeePerPlayer)).addInput
    ⟨input, DepositAndInput.input msg⟩)

/-- The deposit and the input of one player, into the arrays: an error code, or zero. -/
def decodeDeposit (msg : ReceivedMessage) (collected : Collected) : Code (Int32 × Collected) := do
  let some transaction ← issue (.zcashImportTransaction (DepositAndInput.depositTransaction msg)) |
    do
    issue (.free msg.address)
    return (-einval, collected)
  let some raw ← issue (.malloc (DepositAndInput.depositTransaction msg).length) | do
    issue (.free msg.address)
    return (-enomem, collected.addTransaction transaction)
  decodeInput build msg ((collected.addTransaction transaction).addRawTransaction
    ⟨raw, DepositAndInput.depositTransaction msg⟩)

/-- The deposits and inputs of the players at the given indices. -/
def collectDeposits : List Nat → Collected → Code (Int32 × Collected)
  | [], collected => return (0, collected)
  | i :: rest, collected => do
    let player ← playerAt i
    let some msg ← issue (.auntieMsgReceive player.channel) | return (-eio, collected)
    if msg.msgType ≠ msgDepositAndInput then
      issue (.free msg.address)
      return (-eio, collected)
    let (ret, collected) ← decodeDeposit build msg collected
    if ret ≠ 0 then
      return (ret, collected)
    collectDeposits rest collected

/-- The clear-contract messages to the players at the given indices. -/
def sendClearContract (sighash txid : Digest) (outputs depositTransactions : List Bytes) :
    List Nat → Code Int32
  | [] => return 0
  | i :: rest => do
    let payload := ClearContract.encode sighash txid (outputs.getD i []) depositTransactions
    let some msg ← issue (.malloc (sizeofMessageHeader + payload.length % 2 ^ 32)) |
      return -enomem
    let player ← playerAt i
    let ret ← issue (.auntieMsgSend (.ofPayload msgClearContract payload) player.channel)
    issue (.free msg)
    if ret ≠ 0 then
      return ret
    sendClearContract sighash txid outputs depositTransactions rest

/-- The callbacks for the deposit transactions. -/
def outputDeposits (context : Pointer) : List Bytes → Code Int32
  | [] => return 0
  | depositTransaction :: rest => do
    let ret ← issue (.callback (.ocallClearContract context depositTransaction))
    if ret ≠ 0 then
      return ret
    outputDeposits context rest

/-- The operator's collateral and fees. -/
def operatorPayout (collateral : Nat) : Nat :=
  (sub64 collateral build.minerFeePerParty + build.operatorFeePerPlayer * build.numPlayers) % 2 ^ 64

/-- The operator signs before its advice is released. -/
def signSettlement (advices : List Pointer) (sighash : Digest) : Code Int32 := do
  let depositWallet ← deref (← get).depositWallet
  let advice ← deref advices.head?
  let signature ← issue (.zcashSignTransaction depositWallet.key advice sighash)
  modify fun globals => { globals with operatorSignature := signature }
  if signature.isNone then
    return -efault
  return 0

/-- From the evaluation of the functionality on. -/
def issueSettlement (context : Pointer) (collateralTransaction merklePaths : Bytes)
    (memo : FixedBytes 512) (collected : Collected) (evaluation : Evaluation) : Code Int32 := do
  let settlement ← issue (.zcashCreateTransaction collected.depositTransactions
    (operatorPayout build (collected.depositAmounts.headD 0) :: evaluation.payouts)
    collected.payoutAddresses collected.advices merklePaths memo)
  modify fun globals => { globals with unauthorizedSettlement := settlement }
  let some settlement := settlement | return -efault
  let (sighash, txid) ← issue (.zcashHashTransaction settlement)
  let ret ← sendClearContract sighash txid (evaluation.outputs.map Buffer.contents)
    (collateralTransaction :: collected.rawDepositTransactions.map Buffer.contents)
    (List.range build.numPlayers)
  if ret ≠ 0 then
    return ret
  let ret ← outputDeposits context (collected.rawDepositTransactions.map Buffer.contents)
  if ret ≠ 0 then
    return ret
  signSettlement collected.advices sighash

/-- With every deposit collected. -/
def settle (context : Pointer) (collateralTransaction merklePaths : Bytes) (memo : FixedBytes 512)
    (collected : Collected) : Code (Int32 × Collected) := do
  let evaluation ← evaluateFunctionality build.numPlayers collected.depositAmounts.tail
  if evaluation.ret ≠ 0 then
    return (evaluation.ret, { collected with outputs := evaluation.outputs })
  let ret ← issueSettlement build context collateralTransaction merklePaths memo collected evaluation
  return (ret, { collected with outputs := evaluation.outputs })

/-- Everything up to the label `cleanup`. -/
def clearContract (context : Pointer) (payoutAddress collateralTransaction merklePaths : Bytes) :
    Code (Int32 × Collected) := do
  let memo ← issue .getSettlementMemo
  let some address ← issue (.zcashImportAddress payoutAddress) | return (-einval, {})
  let depositWallet ← deref (← get).depositWallet
  let some advice ← issue (.zcashCreateAdvice depositWallet.key) |
    return (-efault, { payoutAddresses := [address] })
  let some transaction ← issue (.zcashImportTransaction collateralTransaction) |
    return (-einval, { payoutAddresses := [address], advices := [advice] })
  let collateral ← issue (.zcashDepositedAmount transaction depositWallet.key)
  if collateral < build.operatorCollateral + build.minerFeePerParty then
    return (-einval,
      { payoutAddresses := [address], advices := [advice], depositTransactions := [transaction] })
  let (ret, collected) ← collectDeposits build (List.range build.numPlayers)
    { payoutAddresses := [address], advices := [advice], depositTransactions := [transaction],
      depositAmounts := [collateral] }
  if ret ≠ 0 then
    return (ret, collected)
  settle build context collateralTransaction merklePaths memo collected

/-- What each element of a local array that is not `NULL` is released by. -/
def releaseAt (release : Pointer → Call Callback Unit) (pointers : List Pointer) (i : Nat) :
    Code Unit :=
  match pointers[i]? with
  | some pointer => issue (release pointer)
  | none => return ()

/-- The objects of the parties at the given indices. -/
def releaseObjects (collected : Collected) : List Nat → Code Unit
  | [] => return ()
  | i :: rest => do
    releaseAt .zcashReleaseTransaction collected.depositTransactions i
    releaseAt .zcashReleaseAddress collected.payoutAddresses i
    releaseAt .zcashReleaseAdvice collected.advices i
    releaseObjects collected rest

/-- The buffers of the players at the given indices. -/
def freeBuffers (collected : Collected) : List Nat → Code Unit
  | [] => return ()
  | i :: rest => do
    releaseAt .free (collected.rawDepositTransactions.map Buffer.address) i
    releaseAt .free (collected.inputs.map Buffer.address) i
    releaseAt .free (collected.outputs.map Buffer.address) i
    freeBuffers collected rest

def ecallClearContractImpl (context : Pointer)
    (payoutAddress collateralTransaction merklePaths : Bytes) : Code Int32 := do
  let (ret, collected) ← clearContract build context payoutAddress collateralTransaction merklePaths
  releaseObjects collected (List.range (build.numPlayers + 1))
  freeBuffers collected (List.range build.numPlayers)
  if ret ≠ 0 then
    if let some settlement := (← get).unauthorizedSettlement then
      issue (.zcashReleasePartialTransaction settlement)
      modify fun globals => { globals with unauthorizedSettlement := none }
  return ret

end ClearContract

section Finalize
variable (build : Build)

/-- The signatures of the players at the given indices, and an error code or zero. -/
def collectSignatures : List Nat → Code (Int32 × List Pointer)
  | [] => return (0, [])
  | i :: rest => do
    let player ← playerAt i
    let some msg ← issue (.auntieMsgReceive player.channel) | return (-eio, [])
    if msg.msgType ≠ msgConfirmDeposits then
      issue (.free msg.address)
      return (-eio, [])
    let signature ← issue (.zcashImportSignature (ConfirmDeposits.signature msg))
    issue (.free msg.address)
    let some signature := signature | return (-einval, [])
    let (ret, signatures) ← collectSignatures rest
    return (ret, signature :: signatures)

def releaseSignatures : List Pointer → Code Unit
  | [] => return ()
  | signature :: rest => do
    issue (.zcashReleaseSignature signature)
    releaseSignatures rest

/-- With every signature present: the settlement is authorized and handed out. Whatever the
callback returns, the call succeeds. -/
def authorizeSettlement (context : Pointer) (signatures : List Pointer) :
    Code (Int32 × Option Pointer) := do
  let settlement ← deref (← get).unauthorizedSettlement
  let authorized ← issue (.zcashAuthorizeTransaction settlement signatures)
  modify fun globals => { globals with unauthorizedSettlement := none }
  let some authorized := authorized | return (-einval, none)
  match ← zcashExportTransaction authorized with
  | .error ret => return (ret, some authorized)
  | .ok raw =>
    let _ ← issue (.callback (.ocallFinalize context raw.contents))
    return (0, some authorized)

def ecallFinalizeImpl (context : Pointer) : Code Int32 := do
  let (ret, signatures) ← collectSignatures (List.range build.numPlayers)
  if ret ≠ 0 then
    releaseSignatures signatures
    return ret
  let operatorSignature ← deref (← get).operatorSignature
  let (ret, authorized) ← authorizeSettlement context (operatorSignature :: signatures)
  releaseSignatures (operatorSignature :: signatures)
  if let some authorized := authorized then
    issue (.zcashReleaseTransaction authorized)
  return ret

end Finalize

/-- Whatever the callback returns, the call succeeds. -/
def ecallRefundImpl (dep : Deployment) (context : Pointer) (blocks : Bytes) : Code Int32 := do
  if let some error := chainError dep.build.refundDelayBlocks
      (Blocks.zcashBlocksSinceCheckpoint dep.crates dep.build blocks) then
    return error
  let depositWallet ← deref (← get).depositWallet
  match ← zcashExportKey depositWallet.key with
  | .error ret => return ret
  | .ok depositKey =>
    let _ ← issue (.callback (.ocallRefund context depositKey.contents))
    issue (.free depositKey.address)
    return 0

section Frame
open Program (Within)
variable {before : Globals}

def WalletOnly (before last : Globals) : Prop :=
  ∃ depositWallet, last = { before with depositWallet := depositWallet }

theorem WalletOnly.set {last : Globals} (h : WalletOnly before last)
    (depositWallet : Option Wallet) :
    WalletOnly before { last with depositWallet := depositWallet } := by
  obtain ⟨_, rfl⟩ := h
  exact ⟨depositWallet, rfl⟩

/-- The contract only changes the settlement and the operator's signature on it. -/
def SettlementOnly (before last : Globals) : Prop :=
  ∃ unauthorizedSettlement operatorSignature, last = { before with
    unauthorizedSettlement := unauthorizedSettlement
    operatorSignature := operatorSignature }

theorem SettlementOnly.settlement {last : Globals} (h : SettlementOnly before last)
    (unauthorizedSettlement : Option Pointer) :
    SettlementOnly before { last with unauthorizedSettlement := unauthorizedSettlement } := by
  obtain ⟨_, operatorSignature, rfl⟩ := h
  exact ⟨_, operatorSignature, rfl⟩

theorem SettlementOnly.signature {last : Globals} (h : SettlementOnly before last)
    (operatorSignature : Option Pointer) :
    SettlementOnly before { last with operatorSignature := operatorSignature } := by
  obtain ⟨unauthorizedSettlement, _, rfl⟩ := h
  exact ⟨unauthorizedSettlement, _, rfl⟩

abbrev initializePermits : Permits Callback where
  outputs
    | .ocallInitialize _ _ => True
    | _ => False

/-- What clearing the contract does before the operator signs. -/
abbrev clearPermits : Permits Callback where
  outputs
    | .ocallClearContract _ _ => True
    | _ => False
  messages := True

/-- What finalizing does before the settlement is handed out. -/
abbrev collectPermits : Permits Callback where
  messages := True
  authorizes := True

variable {permits : Permits Callback} {keeps : Globals → Prop}

theorem ecallInitializeImpl_within (context : Pointer) :
    (ecallInitializeImpl context).Within (Call.Permitted initializePermits)
      (WalletOnly before) := by
  unfold ecallInitializeImpl zcashExportAddress
  repeat' with_reducible first
    | apply zcashCreateWallet_within
    | apply zcashReleaseWallet_within
    | apply zcashExport_within
    | intro _
    | apply Within.issue
    | apply Within.value
    | apply Within.update
    | apply Within.bind
    | split
  all_goals first | trivial | exact WalletOnly.set ‹_› _

theorem decodeDeposit_within (build : Build) (msg : ReceivedMessage) (collected : Collected) :
    (decodeDeposit build msg collected).Within Call.Internal keeps := by
  unfold decodeDeposit decodeInput decodeParty
  repeat' with_reducible first
    | intro _
    | apply Within.issue
    | apply Within.value
    | apply Within.bind
    | split
  all_goals trivial

theorem freeAll_within (buffers : List Buffer) :
    (freeAll buffers).Within Call.Internal keeps := by
  induction buffers with
  | nil => exact Within.value _
  | cons buffer rest ih => exact Within.bind (Within.issue trivial) fun _ => ih

theorem allocateOutputs_within (count : Nat) :
    (allocateOutputs count).Within Call.Internal keeps := by
  induction count with
  | zero => exact Within.value _
  | succ count ih =>
    refine Within.bind (Within.issue trivial) fun address => ?_
    cases address with
    | none => exact Within.value _
    | some address => exact Within.bind ih fun _ => Within.value _

theorem evaluateFunctionality_within (numPlayers : Nat) (deposits : List Nat) :
    (evaluateFunctionality numPlayers deposits).Within Call.Internal keeps := by
  unfold evaluateFunctionality
  repeat' with_reducible first
    | apply allocateOutputs_within
    | apply freeAll_within
    | intro _
    | apply Within.issue
    | apply Within.value
    | apply Within.bind
    | split
  all_goals trivial

section Messages
variable {allowed : {β : Type} → Call Callback β → Prop}
variable (hinternal : ∀ {β : Type} (c : Call Callback β), c.Internal → allowed c)

include hinternal in
theorem collectDeposits_within (hreceive : ∀ channel, allowed (.auntieMsgReceive channel))
    (build : Build) (indices : List Nat) (collected : Collected) :
    (collectDeposits build indices collected).Within allowed keeps := by
  induction indices generalizing collected with
  | nil => exact Within.value _
  | cons i rest ih =>
    unfold collectDeposits playerAt
    repeat' with_reducible first
      | apply ih
      | exact Within.issue (hreceive _)
      | exact (decodeDeposit_within _ _ _).mono hinternal
      | apply deref_within
      | intro _
      | apply Within.issue
      | apply Within.value
      | apply Within.get_bind
      | apply Within.bind
      | split
    all_goals exact hinternal _ trivial

include hinternal in
theorem collectSignatures_within (hreceive : ∀ channel, allowed (.auntieMsgReceive channel))
    (indices : List Nat) : (collectSignatures indices).Within allowed keeps := by
  induction indices with
  | nil => exact Within.value _
  | cons i rest ih =>
    unfold collectSignatures playerAt
    repeat' with_reducible first
      | exact ih
      | exact Within.issue (hreceive _)
      | apply deref_within
      | intro _
      | apply Within.issue
      | apply Within.value
      | apply Within.get_bind
      | apply Within.bind
      | split
    all_goals exact hinternal _ trivial

include hinternal in
theorem sendClearContract_within
    (hsend : ∀ payload channel, allowed (.auntieMsgSend (.ofPayload msgClearContract payload) channel))
    (sighash txid : Digest) (outputs depositTransactions : List Bytes) (indices : List Nat) :
    (sendClearContract sighash txid outputs depositTransactions indices).Within allowed keeps := by
  induction indices with
  | nil => exact Within.value _
  | cons i rest ih =>
    unfold sendClearContract playerAt
    repeat' with_reducible first
      | exact ih
      | exact Within.issue (hsend _ _)
      | apply deref_within
      | intro _
      | apply Within.issue
      | apply Within.value
      | apply Within.get_bind
      | apply Within.bind
      | split
    all_goals exact hinternal _ trivial

theorem outputDeposits_within
    (hcallback : ∀ context transaction, allowed (.callback (.ocallClearContract context transaction)))
    (context : Pointer) (depositTransactions : List Bytes) :
    (outputDeposits context depositTransactions).Within allowed keeps := by
  induction depositTransactions with
  | nil => exact Within.value _
  | cons depositTransaction rest ih =>
    refine Within.bind (Within.issue (hcallback _ _)) fun ret => ?_
    split
    · exact Within.value _
    · exact ih

include hinternal in
theorem signSettlement_within
    (hsign : ∀ key advice sighash, allowed (.zcashSignTransaction key advice sighash))
    (hsignature : ∀ (last : Globals) operatorSignature, keeps last →
      keeps { last with operatorSignature := operatorSignature })
    (advices : List Pointer) (sighash : Digest) :
    (signSettlement advices sighash).Within allowed keeps := by
  have hfault : allowed .fault := hinternal _ trivial
  unfold signSettlement
  repeat' with_reducible first
    | exact deref_within hfault _
    | exact Within.issue (hsign _ _ _)
    | intro _
    | apply Within.value
    | apply Within.get_bind
    | apply Within.update
    | apply Within.bind
    | split
  all_goals exact hsignature _ _ ‹_›

include hinternal in
theorem ecallRefundImpl_within
    (hrefund : ∀ context depositKey, allowed (.callback (.ocallRefund context depositKey)))
    (dep : Deployment) (context : Pointer) (blocks : Bytes) :
    (ecallRefundImpl dep context blocks).Within allowed keeps := by
  have hfault : allowed .fault := hinternal _ trivial
  unfold ecallRefundImpl zcashExportKey
  repeat' with_reducible first
    | apply zcashExport_within
    | exact deref_within hfault _
    | exact Within.issue (hrefund _ _)
    | intro _
    | apply Within.issue
    | apply Within.value
    | apply Within.get_bind
    | apply Within.bind
    | split
  all_goals exact hinternal _ trivial

end Messages

theorem releaseAt_within {release : Pointer → Call Callback Unit}
    (h : ∀ pointer, (release pointer).Internal) (pointers : List Pointer) (i : Nat) :
    (releaseAt release pointers i).Within Call.Internal keeps := by
  unfold releaseAt
  split
  · exact Within.issue (h _)
  · exact Within.value _

theorem releaseObjects_within (collected : Collected) (indices : List Nat) :
    (releaseObjects collected indices).Within Call.Internal keeps := by
  induction indices with
  | nil => exact Within.value _
  | cons i rest ih =>
    unfold releaseObjects
    repeat' with_reducible first
      | exact ih
      | apply releaseAt_within
      | intro _
      | apply Within.bind
    all_goals trivial

theorem freeBuffers_within (collected : Collected) (indices : List Nat) :
    (freeBuffers collected indices).Within Call.Internal keeps := by
  induction indices with
  | nil => exact Within.value _
  | cons i rest ih =>
    unfold freeBuffers
    repeat' with_reducible first
      | exact ih
      | apply releaseAt_within
      | intro _
      | apply Within.bind
    all_goals trivial

theorem releaseSignatures_within (signatures : List Pointer) :
    (releaseSignatures signatures).Within Call.Internal keeps := by
  induction signatures with
  | nil => exact Within.value _
  | cons signature rest ih => exact Within.bind (Within.issue trivial) fun _ => ih

section Contract
variable {build : Build}

/-- The calls that clearing a contract consists of. -/
def Clearing {β : Type} : Call Callback β → Prop
  | .auntieMsgSend msg _ => msg.msgType = msgClearContract
  | .callback output =>
    match output with
    | .ocallClearContract _ _ => True
    | _ => False
  | .zcashAuthorizeTransaction _ _ => False
  | _ => True

theorem clearing_of_internal {β : Type} (c : Call Callback β) (h : c.Internal) : Clearing c := by
  cases c with
  | callback | auntieMsgSend | zcashAuthorizeTransaction => exact absurd h id
  | _ => trivial

theorem Clearing.sends {β : Type} {c : Call Callback β} (h : Clearing c) :
    c.Sends [msgClearContract] := by
  cases c with
  | auntieMsgSend => exact List.mem_singleton.mpr h
  | _ => trivial

theorem settle_clearing (context : Pointer) (collateralTransaction merklePaths : Bytes)
    (memo : FixedBytes 512) (collected : Collected) :
    (settle build context collateralTransaction merklePaths memo collected).Within
      Clearing (SettlementOnly before) := by
  unfold settle issueSettlement
  repeat' with_reducible first
    | exact (evaluateFunctionality_within _ _).mono clearing_of_internal
    | refine sendClearContract_within clearing_of_internal ?_ _ _ _ _ _
    | refine outputDeposits_within ?_ _ _
    | refine signSettlement_within clearing_of_internal ?_ (fun _ _ h => h.signature _) _ _
    | intro _
    | apply Within.issue
    | apply Within.value
    | apply Within.update
    | apply Within.bind
    | split
  all_goals first | trivial | rfl | exact SettlementOnly.settlement ‹_› _

theorem ecallClearContractImpl_clearing (context : Pointer)
    (payoutAddress collateralTransaction merklePaths : Bytes) :
    (ecallClearContractImpl build context payoutAddress collateralTransaction merklePaths).Within
      Clearing (SettlementOnly before) := by
  unfold ecallClearContractImpl clearContract
  repeat' with_reducible first
    | refine collectDeposits_within clearing_of_internal ?_ _ _ _
    | exact (releaseObjects_within _ _).mono clearing_of_internal
    | exact (freeBuffers_within _ _).mono clearing_of_internal
    | apply deref_within
    | apply settle_clearing
    | intro _
    | apply Within.issue
    | apply Within.value
    | apply Within.get_bind
    | apply Within.update
    | apply Within.bind
    | split
  all_goals first | trivial | exact SettlementOnly.settlement ‹_› _

theorem ecallClearContractImpl_within (context : Pointer)
    (payoutAddress collateralTransaction merklePaths : Bytes) :
    (ecallClearContractImpl build context payoutAddress collateralTransaction merklePaths).Within
      (Call.Sends [msgClearContract]) (SettlementOnly before) :=
  (ecallClearContractImpl_clearing context payoutAddress collateralTransaction merklePaths).mono
    fun _ hc => hc.sends

theorem ecallFinalizeImpl_within (context : Pointer) :
    (ecallFinalizeImpl build context).Within (Call.Sends []) (SettlementOnly before) := by
  have hreceive : ∀ channel, (Call.auntieMsgReceive channel : Call Callback _).Sends [] :=
    fun _ => trivial
  unfold ecallFinalizeImpl authorizeSettlement zcashExportTransaction
  repeat' with_reducible first
    | exact collectSignatures_within (fun _ hc => hc.sends _) hreceive _
    | exact within_sends (releaseSignatures_within _)
    | apply zcashExport_within
    | exact deref_within trivial _
    | intro _
    | apply Within.issue
    | apply Within.value
    | apply Within.get_bind
    | apply Within.update
    | apply Within.bind
    | split
  all_goals first | trivial | exact SettlementOnly.settlement ‹_› _

theorem ecallRefundImpl_sends (dep : Deployment) (context : Pointer) (blocks : Bytes) :
    (ecallRefundImpl dep context blocks).Within (Call.Sends []) keeps :=
  ecallRefundImpl_within (fun _ hc => hc.sends []) (fun _ _ => trivial) dep context blocks

end Contract

/-- A chain that does not pass the check is refused before anything is released. -/
theorem ecallRefundImpl_refused {dep : Deployment} {context : Pointer} {blocks : Bytes}
    {error : Int32} (h : chainError dep.build.refundDelayBlocks
      (Blocks.zcashBlocksSinceCheckpoint dep.crates dep.build blocks) = some error) :
    ecallRefundImpl dep context blocks = pure error := by
  rw [ecallRefundImpl, h]

end Frame

end Auntie.Source.Operator
