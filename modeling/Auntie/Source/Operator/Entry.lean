import Auntie.Source.Operator.Core

/-!
# ECALLs of the operator's enclave

Embeds `operator/trusted/entry.c`: the connection of the players and the state machine
around the contract, as a component whose operations are the public ECALLs of
`auntie_operator.edl`. As in the player's enclave, the operations of a run do not
overlap.
-/

namespace Auntie.Source.Operator
open Auntie.Interaction

/-- The public ECALLs with the arguments the edge routines hand in. -/
inductive Ecall where
  | ecallConnectToPlayer (context : Pointer)
  | ecallInitialize (context : Pointer)
  | ecallClearContract (context : Pointer) (payoutAddress collateralTransaction merklePaths : Bytes)
  | ecallFinalize (context : Pointer)
  | ecallRefund (context : Pointer) (blocks : Bytes)

def setState (state : State) : Code Unit := modify fun globals => { globals with state := state }

/-- The quoting enclave is asked for once: an error code, or none. -/
def learnQuotingEnclave : Code (Option Int32) := do
  if (← get).quotingEnclaveKnown then
    return none
  let (ret, quotingEnclave) ← issue .ocallGetQuotingEnclave
  modify fun globals => { globals with quotingEnclave := quotingEnclave }
  if ret ≠ 0 then
    return some ret
  modify fun globals => { globals with quotingEnclaveKnown := true }
  return none

variable (dep : Deployment)

def ecallConnectToPlayer (context : Pointer) : Code Int32 := do
  if allPlayersConnected dep.build.numPlayers (← get) then
    return -ebusy
  if let some error ← learnQuotingEnclave then
    return error
  let some player ← mutualAttestation dep.tcrypto dep.build.numPlayers context | return -eio
  addPlayer dep.build.numPlayers player
  if allPlayersConnected dep.build.numPlayers (← get) then
    presentQuotes dep.build.numPlayers
  else
    return 0

def ecallInitialize (context : Pointer) : Code Int32 := do
  if (← get).state ≠ .uninitialized then
    return -einval
  let ret ← ecallInitializeImpl context
  if ret = 0 then
    setState .initialized
  return ret

def ecallClearContract (context : Pointer)
    (payoutAddress collateralTransaction merklePaths : Bytes) : Code Int32 := do
  if (← get).state ≠ .initialized then
    return -einval
  let ret ← ecallClearContractImpl dep.build context payoutAddress collateralTransaction merklePaths
  setState (if ret ≠ 0 then .aborted else .clearedContract)
  return ret

def ecallFinalize (context : Pointer) : Code Int32 := do
  if (← get).state ≠ .clearedContract then
    return -einval
  let ret ← ecallFinalizeImpl dep.build context
  setState (if ret ≠ 0 then .aborted else .finalized)
  return ret

def ecallRefund (context : Pointer) (blocks : Bytes) : Code Int32 := do
  if (← get).state = .finalized then
    return -einval
  let ret ← ecallRefundImpl dep context blocks
  if ret = 0 then
    setState .refunded
  return ret

def handle : Ecall → Code Int32
  | .ecallConnectToPlayer context => ecallConnectToPlayer dep context
  | .ecallInitialize context => ecallInitialize context
  | .ecallClearContract context payoutAddress collateralTransaction merklePaths =>
    ecallClearContract dep context payoutAddress collateralTransaction merklePaths
  | .ecallFinalize context => ecallFinalize dep context
  | .ecallRefund context blocks => ecallRefund dep context blocks

def enclave : Component (Call Callback) Globals := ⟨Ecall, Int32, handle dep⟩

/-- The enclave as it is loaded. -/
def initial : Globals := { players := List.replicate dep.build.numPlayers none }

section Frame
open Program (Within)
variable {allowed : {β : Type} → Call Callback β → Prop} {keeps : Globals → Prop}

theorem learnQuotingEnclave_within (hask : allowed .ocallGetQuotingEnclave)
    (hlearned : ∀ (last : Globals) quotingEnclave quotingEnclaveKnown, keeps last → keeps
      { last with
        quotingEnclave := quotingEnclave, quotingEnclaveKnown := quotingEnclaveKnown }) :
    learnQuotingEnclave.Within allowed keeps := by
  unfold learnQuotingEnclave
  apply Within.get_bind
  intro globals _
  split
  · exact Within.value _
  · refine Within.bind (Within.issue hask) fun answer => ?_
    refine Within.bind (Within.update fun last h => hlearned last _ _ h) fun _ => ?_
    split
    · exact Within.value _
    · exact Within.bind (Within.update fun last h => hlearned last _ _ h) fun _ => Within.value _

variable {dep} {before : Globals}

/-- A connection only issues the calls of the setup and only changes what belongs to it. -/
theorem ecallConnectToPlayer_within
    (hhandshake : ∀ {β : Type} (c : Call Callback β), c.Handshake → allowed c)
    (hfault : allowed .fault) (hreceive : ∀ channel, allowed (.auntieMsgReceive channel))
    (hask : allowed .ocallGetQuotingEnclave) (hquote : ∀ report, allowed (.ocallQuoteMe report))
    (hprint : ∀ quote reportData, allowed (.ocallPrintQuote quote reportData))
    (hsend : ∀ msgType payload channel,
      msgType ∈ [msgAttestationSynack, msgPlayersQuotesBroadcast, msgSetupComplete] →
        allowed (.auntieMsgSend (.ofPayload msgType payload) channel)) (context : Pointer) :
    (ecallConnectToPlayer dep context).Within allowed (SetupOnly before) := by
  have hplayer : ∀ i ∈ List.range dep.build.numPlayers,
      (playerAt i).Within allowed (SetupOnly before) := fun i _ => playerAt_within hfault i
  unfold ecallConnectToPlayer
  apply Within.get_bind
  intro globals _
  split
  · exact Within.value _
  refine Within.bind (learnQuotingEnclave_within hask fun _ _ _ h => h.quotingEnclave _ _)
    fun error => ?_
  cases error with
  | some error => exact Within.value _
  | none =>
    refine Within.bind (mutualAttestation_within hhandshake hreceive (fun _ stash h => h.stash stash)
      hquote (fun _ _ => hsend _ _ _ List.mem_cons_self) _ _ _) fun player => ?_
    cases player with
    | none => exact Within.value _
    | some player =>
      refine Within.bind (addPlayer_within hfault (fun _ _ _ h => h.players _ _) _ _) fun _ => ?_
      apply Within.get_bind
      intro globals _
      split
      · refine presentQuotes_within (fun _ => hhandshake _ trivial) (fun _ => hhandshake _ trivial)
          hreceive hprint hplayer fun _ _ htype i hi => ?_
        exact Within.bind (hplayer i hi) fun _ =>
          Within.issue (hsend _ _ _ (List.mem_cons_of_mem _ htype))
      · exact Within.value _

theorem ecallConnectToPlayer_permitted (context : Pointer) :
    (ecallConnectToPlayer dep context).Within (Call.Permitted messagePermits)
      (SetupOnly before) :=
  ecallConnectToPlayer_within (fun _ hc => hc.internal.permitted messagePermits) trivial
    (fun _ => trivial) trivial (fun _ => trivial) (fun _ _ => trivial) (fun _ _ _ _ => trivial)
    context

end Frame

section Host

theorem syn_in_range : msgAttestationSyn < msgTypeCount := by decide

/-- What the players send: on the channel opened in the context `id` it is the player `id`. -/
def contractMessages (time : Nat) (channel : ChannelRef) : ReceivedMessage :=
  match channel.sessionKey with
  | none =>
    (Message.mk msgAttestationSyn (Syn.encode
      ⟨FixedBytes.zero 64, channel.address, FixedBytes.zero 32⟩)).received
      syn_in_range (by rw [Syn.encode_length]; decide)
  | some _ =>
    if time < 150 then
      (Message.mk msgAttestationAck [1]).received (by decide) (by decide)
    else if time < 190 then
      (Message.mk msgPlayersQuotesOk []).received (by decide) (by decide)
    else if time < 280 then
      (Message.mk msgDepositAndInput (DepositAndInput.encode 1000000 [1] [2]
        (FixedBytes.zero 43).val (FixedBytes.zero 128).val)).received
        (by decide) (by decide +kernel)
    else
      (Message.mk msgConfirmDeposits (ConfirmDeposits.encode (FixedBytes.zero 64).val)).received
        (by decide) (by decide +kernel)

/-- The contract of three players. -/
def contract : List Ecall :=
  [.ecallConnectToPlayer 1, .ecallConnectToPlayer 2, .ecallConnectToPlayer 3, .ecallInitialize 0,
    .ecallClearContract 0 [1] [2] [3], .ecallFinalize 0]

def contractHost {β : Type} : Nat → Call Callback β → Option β :=
  obligingHost (fun time channel => some (contractMessages time channel)) (fun _ => 0)

def contractSteps : List (Step (enclave zeroDeployment)) :=
  playRun (enclave zeroDeployment) contractHost 0 (initial zeroDeployment) contract

def contractState : Globals :=
  lastState (enclave zeroDeployment) (initial zeroDeployment) contractSteps

theorem contractSteps_run :
    Run (enclave zeroDeployment) (initial zeroDeployment) contractSteps contractState :=
  run_playRun (enclave zeroDeployment) contractHost (initial zeroDeployment) contract
    (by decide +kernel)

end Host

end Auntie.Source.Operator
