import Auntie.Source.Player.Core

/-!
# ECALLs of the player's enclave

Embeds `player/trusted/entry.c`: the state machine around the contract, as a
component whose operations are the public ECALLs of `auntie_player.edl`. The enclave
has one thread, so the operations of a run do not overlap; inside an OCALL the host
may only call `ecall_quote_me_callback`, which is part of the answer of
`ocall_quote_me`.
-/

namespace Auntie.Source.Player
open Auntie.Interaction

/-- The public ECALLs with the arguments the edge routines hand in. -/
inductive Ecall where
  | ecallConnectToOperator (context : Pointer) (playerId : Nat)
  | ecallInitialize (context : Pointer)
  | ecallDepositAndInput (depositTransaction input : Bytes)
  | ecallGetDeposits (context : Pointer)
  | ecallConfirmDeposits
  | ecallSettle (context : Pointer) (blocks : Bytes)
  | ecallRefund (context : Pointer) (blocks : Bytes)

def setState (state : State) : Code Unit := modify fun globals => { globals with state := state }

variable (dep : Deployment)

def ecallConnectToOperator (context : Pointer) (playerId : Nat) : Code Int32 :=
  ecallConnectToOperatorImpl dep.build.numPlayers dep.tcrypto context playerId

def ecallInitialize (context : Pointer) : Code Int32 := do
  if (← get).state ≠ .uninitialized then
    return -einval
  let ret ← ecallInitializeImpl context
  if ret = 0 then
    setState .initialized
  return ret

def ecallDepositAndInput (depositTransaction input : Bytes) : Code Int32 := do
  if (← get).state ≠ .initialized then
    return -einval
  let ret ← ecallDepositAndInputImpl dep.build depositTransaction input
  setState (if ret ≠ 0 then .aborted else .deposited)
  return ret

def ecallGetDeposits (context : Pointer) : Code Int32 := do
  if (← get).state ≠ .deposited then
    return -einval
  let ret ← ecallGetDepositsImpl dep.build context
  setState (if ret ≠ 0 then .aborted else .gotDeposits)
  return ret

def ecallConfirmDeposits : Code Int32 := do
  if (← get).state ≠ .gotDeposits then
    return -einval
  let ret ← ecallConfirmDepositsImpl
  setState (if ret ≠ 0 then .aborted else .confirmedDeposits)
  return ret

def ecallSettle (context : Pointer) (blocks : Bytes) : Code Int32 := do
  let state := (← get).state
  if state ≠ .confirmedDeposits ∧ state ≠ .refunded then
    return -einval
  let ret ← ecallSettleImpl dep context blocks
  if ret = 0 then
    setState .settled
  return ret

def ecallRefund (context : Pointer) (blocks : Bytes) : Code Int32 := do
  if (← get).state = .settled then
    return -einval
  let ret ← ecallRefundImpl dep context blocks
  if ret = 0 then
    setState .refunded
  return ret

def handle : Ecall → Code Int32
  | .ecallConnectToOperator context playerId => ecallConnectToOperator dep context playerId
  | .ecallInitialize context => ecallInitialize context
  | .ecallDepositAndInput depositTransaction input =>
    ecallDepositAndInput dep depositTransaction input
  | .ecallGetDeposits context => ecallGetDeposits dep context
  | .ecallConfirmDeposits => ecallConfirmDeposits
  | .ecallSettle context blocks => ecallSettle dep context blocks
  | .ecallRefund context blocks => ecallRefund dep context blocks

def enclave : Component (Call Callback) Globals := ⟨Ecall, Int32, handle dep⟩

/-- The enclave as it is loaded. -/
def initial : Globals := {}

section Releases
variable {dep} {globals : Globals} {blocks : Bytes} (context : Pointer)

/-- A chain that passes can release the deposit key. -/
theorem ecallRefund_releases {depositWallet : Wallet} (hstate : globals.state ≠ .settled)
    (hchain : chainError dep.build.refundDelayBlocks
      (Blocks.zcashBlocksSinceCheckpoint dep.crates dep.build blocks) = none)
    (hwallet : globals.depositWallet = some depositWallet) (depositKey : FixedBytes 32) :
    ∃ step : Step (enclave dep), step.Valid ∧ step.before = globals ∧
      step.op = .ecallRefund context blocks ∧ step.result = some (0 : Int32) ∧
      step.after = { globals with state := .refunded } ∧
      .issued (.callback (.ocallRefund context depositKey.val)) ∈ step.events := by
  have hexec : Exec (ecallRefund dep context blocks) globals
      [.issued (.malloc 32), .answered (.malloc 32) (some 0),
        .issued (.zcashExportKeyImpl depositWallet.key),
        .answered (.zcashExportKeyImpl depositWallet.key) depositKey,
        .issued (.callback (.ocallRefund context depositKey.val)),
        .answered (.callback (.ocallRefund context depositKey.val)) 0,
        .issued (.free 0), .answered (.free 0) ()]
      { globals with state := .refunded } (some 0) := by
    simp [ecallRefund, ecallRefundImpl, zcashExportKey, zcashExport, setState, deref, hstate,
      hchain, hwallet, -bind_pure_comp]
  exact ⟨⟨_, .ecallRefund context blocks, _, _, _⟩, hexec, rfl, rfl, rfl, rfl, by simp⟩

/-- A chain that passes can release the payout key and the output. -/
theorem ecallSettle_releases {depositWallet payoutWallet : Wallet} {count : Int32}
    (hstate : globals.state = .confirmedDeposits ∨ globals.state = .refunded)
    (hburied : (Blocks.zcashAuthorizedAndBuried dep.crates dep.build globals.settlementTxid
      blocks).outcome = .returned count)
    (hchain : chainError dep.build.settleDelayBlocks count = none)
    (hwallet : globals.depositWallet = some depositWallet)
    (hpayout : globals.payoutWallet = some payoutWallet) (payoutKey : FixedBytes 32) :
    ∃ step : Step (enclave dep), step.Valid ∧ step.before = globals ∧
      step.op = .ecallSettle context blocks ∧ step.result = some (0 : Int32) ∧
      step.after = { globals with state := .settled } ∧
      .issued (.callback (.ocallSettle context payoutKey.val
        (globals.functionalityOutput.map Buffer.contents) globals.functionalityOutputLength))
        ∈ step.events := by
  have hallowed : ¬ (globals.state ≠ .confirmedDeposits ∧ globals.state ≠ .refunded) := by
    tauto
  let release : Call Callback Int32 := .callback (.ocallSettle context payoutKey.val
    (globals.functionalityOutput.map Buffer.contents) globals.functionalityOutputLength)
  have hexec : Exec (ecallSettle dep context blocks) globals
      [.issued (.malloc 32), .answered (.malloc 32) (some 0),
        .issued (.zcashExportKeyImpl payoutWallet.key),
        .answered (.zcashExportKeyImpl payoutWallet.key) payoutKey,
        .issued release, .answered release 0, .issued (.free 0), .answered (.free 0) ()]
      { globals with state := .settled } (some 0) := by
    simp [release, ecallSettle, ecallSettleImpl, zcashExportKey, zcashExport, setState, deref,
      chainVerifier, hallowed, hburied, hchain, hwallet, hpayout, -bind_pure_comp]
  exact ⟨⟨_, .ecallSettle context blocks, _, _, _⟩, hexec, rfl, rfl, rfl, rfl, by simp [release]⟩

end Releases

section Host
/-- What the operator sends to the first of three players. -/
def contractMessages (time : Nat) : ReceivedMessage :=
  if time < 30 then
    (Message.mk msgAttestationSynack
      (Synack.encode ⟨FixedBytes.zero 64, FixedBytes.zero 32, [1]⟩)).received
      (by decide) (by decide +kernel)
  else if time < 60 then
    (Message.mk msgPlayersQuotesBroadcast
      (QuotesBroadcast.encode (List.replicate 3 (FixedBytes.zero 64, [1])))).received
      (by decide) (by decide +kernel)
  else if time < 80 then
    (Message.mk msgSetupComplete []).received (by decide) (by decide)
  else
    (Message.mk msgClearContract (ClearContract.encode (FixedBytes.zero 32) (FixedBytes.zero 32)
      [9] [[1], [2], [3], [4]])).received (by decide) (by decide +kernel)

/-- The contract up to the confirmation. -/
def contract : List Ecall :=
  [.ecallConnectToOperator 0 1, .ecallInitialize 0, .ecallDepositAndInput [1] [2],
    .ecallGetDeposits 0, .ecallConfirmDeposits]

def contractHost {β : Type} : Nat → Call Callback β → Option β :=
  obligingHost (fun time _ => some (contractMessages time)) (fun _ => 0)

def contractSteps : List (Step (enclave zeroDeployment)) :=
  playRun (enclave zeroDeployment) contractHost 0 initial contract

def contractState : Globals := lastState (enclave zeroDeployment) initial contractSteps

theorem contractSteps_run : Run (enclave zeroDeployment) initial contractSteps contractState :=
  run_playRun (enclave zeroDeployment) contractHost initial contract (by decide +kernel)

end Host

end Auntie.Source.Player
