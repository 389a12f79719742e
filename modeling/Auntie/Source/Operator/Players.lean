import Auntie.Source.Common.Payloads
import Auntie.Source.Common.Zcash

/-!
# Players of the operator's enclave

Embeds `operator/trusted/players.c` and `operator/trusted/mutual_attestation.c`: the
slot table, the handshake with a player's enclave, and the broadcast of all quotes once
every slot is filled. The globals of the whole enclave are declared here.
-/

namespace Auntie.Source.Operator
open Auntie.Interaction
open Blocks (Digest)

/-- The OCALLs of `auntie_operator.edl`, all of which hand output to the host. -/
inductive Callback where
  | ocallInitialize (context : Pointer) (depositAddress : Bytes)
  | ocallClearContract (context : Pointer) (depositTransaction : Bytes)
  | ocallFinalize (context : Pointer) (settlementTransaction : Bytes)
  | ocallRefund (context : Pointer) (depositKey : Bytes)
  deriving DecidableEq

/-- `struct player`. -/
structure Player where
  struct : Pointer
  channel : ChannelRef
  id : Nat
  reportData : ReportData
  quote : Buffer

abbrev sizeofPlayer : Nat := 96

/-- `enum state` of `entry.c`. -/
inductive State where
  | uninitialized
  | initialized
  | clearedContract
  | finalized
  | refunded
  | aborted
  deriving DecidableEq

/-- The static variables of the enclave. `players` has a slot for each player, `NULL` when
the enclave is loaded. -/
structure Globals where
  state : State := .uninitialized
  quotingEnclave : TargetInfo := FixedBytes.zero 512
  quotingEnclaveKnown : Bool := false
  players : List (Option Player)
  playersConnected : Nat := 0
  stash : Stash := {}
  depositWallet : Option Wallet := none
  unauthorizedSettlement : Option Pointer := none
  operatorSignature : Option Pointer := none

abbrev Code := Program (Call Callback) Globals

section Slots
variable (numPlayers : Nat)

def playerIdOk (players : List (Option Player)) (id : Nat) : Bool :=
  id ≠ 0 && id ≤ numPlayers && (players[id - 1]?.join).isNone

/-- The assertion of `add_player` aborts the enclave. -/
def addPlayer (player : Player) : Code Unit := do
  if !playerIdOk numPlayers (← get).players player.id then
    fault
  modify fun globals => { globals with
    players := globals.players.set (player.id - 1) (some player)
    playersConnected := globals.playersConnected + 1 }

def allPlayersConnected (globals : Globals) : Bool := globals.playersConnected = numPlayers

/-- `players[i]`, read through. -/
def playerAt (i : Nat) : Code Player := do deref (← get).players[i]?.join

end Slots

section PresentQuotes
variable (numPlayers : Nat)

/-- Shows the quotes at the given indices to the host: an error code, or none. -/
def printQuotes : List Nat → Code (Option Int32)
  | [] => return none
  | i :: rest => do
    let player ← playerAt i
    let ret ← issue (.ocallPrintQuote player.quote.contents player.reportData)
    if ret ≠ 0 then
      return some ret
    printQuotes rest

/-- Report data and quote of the players at the given indices. -/
def collectQuotes : List Nat → Code (List (ReportData × Bytes))
  | [] => return []
  | i :: rest => do
    let player ← playerAt i
    return (player.reportData, player.quote.contents) :: (← collectQuotes rest)

/-- Sends one message to the players at the given indices: an error code, or none. -/
def broadcast (msg : Message) : List Nat → Code (Option Int32)
  | [] => return none
  | i :: rest => do
    let player ← playerAt i
    let ret ← issue (.auntieMsgSend msg player.channel)
    if ret ≠ 0 then
      return some ret
    broadcast msg rest

/-- Waits for the acknowledgements of the players at the given indices: an error code, or
none. -/
def receiveAcknowledgements : List Nat → Code (Option Int32)
  | [] => return none
  | i :: rest => do
    let player ← playerAt i
    let some msg ← issue (.auntieMsgReceive player.channel) | return some (-eio)
    if msg.msgType ≠ msgPlayersQuotesOk then
      issue (.free msg.address)
      return some (-eio)
    issue (.free msg.address)
    receiveAcknowledgements rest

def presentQuotes : Code Int32 := do
  if let some error ← printQuotes (List.range numPlayers) then
    return error
  let payload := QuotesBroadcast.encode (← collectQuotes (List.range numPlayers))
  let some msg ← issue (.malloc (sizeofMessageHeader + payload.length % 2 ^ 32)) |
    return -enomem
  let error ← broadcast (.ofPayload msgPlayersQuotesBroadcast payload) (List.range numPlayers)
  issue (.free msg)
  if let some error := error then
    return error
  if let some error ← receiveAcknowledgements (List.range numPlayers) then
    return error
  let some msg ← issue (.malloc sizeofMessageHeader) | return -enomem
  let error ← broadcast (.ofPayload msgSetupComplete []) (List.range numPlayers)
  issue (.free msg)
  if let some error := error then
    return error
  return 0

end PresentQuotes

section MutualAttestation

/-- The callbacks the host makes inside `ocall_quote_me`. -/
def stashQuotes (callbacks : List QuoteCallback) : Code Unit :=
  modify fun globals => { globals with stash := callbacks.foldl Stash.put globals.stash }

def dropStashedQuote : Code Unit := do
  if let some quote := (← get).stash.quote then
    issue (.free quote.address)
  modify fun globals => { globals with stash := {} }

/-- Once the channel is encrypted: the ACK and the object for the player. Without memory for
the object the message is freed twice. -/
def receiveAck (channel : ChannelRef) (playerReportData : ReportData) : Code (Option Player) := do
  let some msg3 ← issue (.auntieMsgReceive channel) | do
    issue (.channelTeardown channel)
    return none
  if msg3.msgType ≠ msgAttestationAck then
    issue (.channelTeardown channel)
    issue (.free msg3.address)
    return none
  let some playerQuote ← issue (.malloc msg3.payload.length) | do
    issue (.channelTeardown channel)
    issue (.free msg3.address)
    return none
  issue (.free msg3.address)
  let some struct ← issue (.malloc sizeofPlayer) | do
    issue (.channelTeardown channel)
    issue (.free msg3.address)
    return none
  return some ⟨struct, channel, channel.id, playerReportData, ⟨playerQuote, msg3.payload⟩⟩

/-- From the report on: the own quote, the SYN/ACK and the switch to encryption. The SYN has
been freed already when a failed report frees it again. -/
def answerSyn (channel : ChannelRef) (msg1 : Pointer) (nonce : Digest) (gb : PublicKey)
    (sessionKey : SessionKey) (operatorReportData playerReportData : ReportData) :
    Code (Option Player) := do
  let some report ← issue (.sgxCreateReport (← get).quotingEnclave operatorReportData) | do
    issue (.channelTeardown channel)
    issue (.free msg1)
    return none
  let (ret, callbacks) ← issue (.ocallQuoteMe report)
  stashQuotes callbacks
  if ret ≠ 0 then
    issue (.channelTeardown channel)
    return none
  let some quote := (← get).stash.get | do
    issue (.channelTeardown channel)
    return none
  let synack : Synack := ⟨gb, nonce, quote.contents⟩
  let some msg2 ← issue (.malloc (sizeofMessageHeader + synack.encode.length % 2 ^ 32)) | do
    issue (.channelTeardown channel)
    dropStashedQuote
    return none
  dropStashedQuote
  let ret ← issue (.auntieMsgSend (.ofPayload msgAttestationSynack synack.encode) channel)
  issue (.free msg2)
  if ret ≠ 0 then
    issue (.channelTeardown channel)
    return none
  receiveAck (channel.encrypt sessionKey) playerReportData

variable (tcrypto : Tcrypto)

/-- With the shared secret: the session key and both report data. -/
def deriveSecrets (channel : ChannelRef) (msg1 : ReceivedMessage) (nonce : Digest)
    (gb : PublicKey) (gab : SharedKey) : Code (Option Player) := do
  let syn := Syn.decode msg1
  let .ok sessionKey ← getSessionKey tcrypto syn.ga gb gab | do
    issue (.channelTeardown channel)
    issue (.free msg1.address)
    return none
  let .ok operatorReportData ← getReportData tcrypto syn.nonce syn.ga gb | do
    issue (.channelTeardown channel)
    issue (.free msg1.address)
    return none
  let playerReportData ← getReportData tcrypto nonce syn.ga gb
  issue (.free msg1.address)
  let .ok playerReportData := playerReportData | do
    issue (.channelTeardown channel)
    return none
  answerSyn channel msg1.address nonce gb sessionKey operatorReportData playerReportData

variable (numPlayers : Nat)

def mutualAttestation (context : Pointer) : Code (Option Player) := do
  let some nonce ← issue (.sgxReadRand 32) | return none
  let some struct ← issue (.channelCreate context) | return none
  let channel := ChannelRef.create struct
  let some msg1 ← issue (.auntieMsgReceive channel) | do
    issue (.channelTeardown channel)
    return none
  if msg1.msgType ≠ msgAttestationSyn ∨ msg1.payload.length ≠ Syn.sizeof then
    issue (.channelTeardown channel)
    issue (.free msg1.address)
    return none
  if !playerIdOk numPlayers (← get).players (Syn.decode msg1).id then
    issue (.channelTeardown channel)
    issue (.free msg1.address)
    return none
  let channel := channel.assignId (Syn.decode msg1).id
  if !(← issue .sgxEcc256OpenContext) then
    issue (.channelTeardown channel)
    issue (.free msg1.address)
    return none
  let some (b, gb) ← issue .sgxEcc256CreateKeyPair | do
    issue .sgxEcc256CloseContext
    issue (.channelTeardown channel)
    issue (.free msg1.address)
    return none
  let gab ← issue (.sgxEcc256ComputeSharedDhkey b (Syn.decode msg1).ga)
  issue .sgxEcc256CloseContext
  let some gab := gab | do
    issue (.channelTeardown channel)
    issue (.free msg1.address)
    return none
  deriveSecrets tcrypto channel msg1 nonce gb gab

end MutualAttestation

section Frame
open Program (Within)
variable {before : Globals}

/-- The setup only changes what belongs to it. -/
def SetupOnly (before last : Globals) : Prop :=
  ∃ quotingEnclave quotingEnclaveKnown players playersConnected stash, last = { before with
    quotingEnclave := quotingEnclave
    quotingEnclaveKnown := quotingEnclaveKnown
    players := players
    playersConnected := playersConnected
    stash := stash }

theorem SetupOnly.quotingEnclave {last : Globals} (h : SetupOnly before last)
    (quotingEnclave : TargetInfo) (quotingEnclaveKnown : Bool) : SetupOnly before
      { last with
        quotingEnclave := quotingEnclave, quotingEnclaveKnown := quotingEnclaveKnown } := by
  obtain ⟨_, _, players, playersConnected, stash, rfl⟩ := h
  exact ⟨_, _, players, playersConnected, stash, rfl⟩

theorem SetupOnly.players {last : Globals} (h : SetupOnly before last)
    (players : List (Option Player)) (playersConnected : Nat) : SetupOnly before
      { last with players := players, playersConnected := playersConnected } := by
  obtain ⟨quotingEnclave, quotingEnclaveKnown, _, _, stash, rfl⟩ := h
  exact ⟨quotingEnclave, quotingEnclaveKnown, _, _, stash, rfl⟩

theorem SetupOnly.stash {last : Globals} (h : SetupOnly before last) (stash : Stash) :
    SetupOnly before { last with stash := stash } := by
  obtain ⟨quotingEnclave, quotingEnclaveKnown, players, playersConnected, _, rfl⟩ := h
  exact ⟨quotingEnclave, quotingEnclaveKnown, players, playersConnected, stash, rfl⟩

abbrev messagePermits : Permits Callback where
  messages := True

section Messages
variable {allowed : {β : Type} → Call Callback β → Prop} {keeps : Globals → Prop}

theorem addPlayer_within (hfault : allowed .fault)
    (hplayers : ∀ (last : Globals) players playersConnected, keeps last →
      keeps { last with players := players, playersConnected := playersConnected })
    (numPlayers : Nat) (player : Player) :
    (addPlayer numPlayers player).Within allowed keeps := by
  unfold addPlayer
  apply Within.get_bind
  intro globals _
  split
  · exact Within.bind (fault_within hfault) fun _ => Within.update fun _ h => hplayers _ _ _ h
  · exact Within.update fun _ h => hplayers _ _ _ h

theorem playerAt_within (hfault : allowed .fault) (i : Nat) : (playerAt i).Within allowed keeps :=
  Within.get_bind fun _ _ => deref_within hfault _

section Slots
variable {indices : List Nat} (hplayer : ∀ i ∈ indices, (playerAt i).Within allowed keeps)
include hplayer

theorem printQuotes_within
    (hprint : ∀ quote reportData, allowed (.ocallPrintQuote quote reportData)) :
    (printQuotes indices).Within allowed keeps := by
  induction indices with
  | nil => exact Within.value _
  | cons i rest ih =>
    obtain ⟨hfirst, hrest⟩ := List.forall_mem_cons.mp hplayer
    refine Within.bind hfirst fun player => ?_
    refine Within.bind (Within.issue (hprint _ _)) fun ret => ?_
    split
    · exact Within.value _
    · exact ih hrest

theorem collectQuotes_within : (collectQuotes indices).Within allowed keeps := by
  induction indices with
  | nil => exact Within.value _
  | cons i rest ih =>
    obtain ⟨hfirst, hrest⟩ := List.forall_mem_cons.mp hplayer
    refine Within.bind hfirst fun player => ?_
    exact Within.bind (ih hrest) fun _ => Within.value _

omit hplayer in
/-- What is sent is sent to the players that the loop reads from the table. -/
theorem broadcast_within (msg : Message)
    (hsend : ∀ i ∈ indices, (playerAt i >>= fun player =>
      issue (.auntieMsgSend msg player.channel)).Within allowed keeps) :
    (broadcast msg indices).Within allowed keeps := by
  induction indices with
  | nil => exact Within.value _
  | cons i rest ih =>
    obtain ⟨hfirst, hrest⟩ := List.forall_mem_cons.mp hsend
    rw [broadcast, ← bind_assoc]
    refine Within.bind hfirst fun ret => ?_
    split
    · exact Within.value _
    · exact ih hrest

theorem receiveAcknowledgements_within
    (hreceive : ∀ channel, allowed (.auntieMsgReceive channel))
    (hfree : ∀ address, allowed (.free address)) :
    (receiveAcknowledgements indices).Within allowed keeps := by
  induction indices with
  | nil => exact Within.value _
  | cons i rest ih =>
    obtain ⟨hfirst, hrest⟩ := List.forall_mem_cons.mp hplayer
    refine Within.bind hfirst fun player => ?_
    refine Within.bind (Within.issue (hreceive _)) fun msg => ?_
    cases msg with
    | none => exact Within.value _
    | some msg =>
      dsimp only
      split
      · exact Within.bind (Within.issue (hfree _)) fun _ => Within.value _
      · exact Within.bind (Within.issue (hfree _)) fun _ => ih hrest

end Slots

/-- The quotes are shown and shared without a change of the globals. -/
theorem presentQuotes_within {numPlayers : Nat}
    (hmalloc : ∀ size, allowed (.malloc size)) (hfree : ∀ address, allowed (.free address))
    (hreceive : ∀ channel, allowed (.auntieMsgReceive channel))
    (hprint : ∀ quote reportData, allowed (.ocallPrintQuote quote reportData))
    (hplayer : ∀ i ∈ List.range numPlayers, (playerAt i).Within allowed keeps)
    (hsend : ∀ msgType payload, msgType ∈ [msgPlayersQuotesBroadcast, msgSetupComplete] →
      ∀ i ∈ List.range numPlayers, (playerAt i >>= fun player =>
        issue (.auntieMsgSend (.ofPayload msgType payload) player.channel)).Within allowed keeps) :
    (presentQuotes numPlayers).Within allowed keeps := by
  unfold presentQuotes
  repeat' with_reducible first
    | exact printQuotes_within hplayer hprint
    | exact collectQuotes_within hplayer
    | exact broadcast_within _ (hsend _ _ (by simp))
    | exact receiveAcknowledgements_within hplayer hreceive hfree
    | intro _
    | apply Within.issue
    | apply Within.value
    | apply Within.bind
    | split
  all_goals first | exact hmalloc _ | exact hfree _

section Handshake
variable (hhandshake : ∀ {β : Type} (c : Call Callback β), c.Handshake → allowed c)
variable (hreceive : ∀ channel, allowed (.auntieMsgReceive channel))
include hhandshake hreceive

variable (hstash : ∀ (last : Globals) stash, keeps last → keeps { last with stash := stash })

omit hreceive in
include hstash in
theorem dropStashedQuote_within : dropStashedQuote.Within allowed keeps := by
  unfold dropStashedQuote
  apply Within.get_bind
  intro globals _
  split
  · exact Within.bind (Within.issue (hhandshake _ trivial)) fun _ =>
      Within.update fun _ h => hstash _ _ h
  · exact Within.update fun _ h => hstash _ _ h

theorem receiveAck_within (channel : ChannelRef) (playerReportData : ReportData) :
    (receiveAck channel playerReportData).Within allowed keeps := by
  unfold receiveAck
  repeat' with_reducible first
    | exact Within.issue (hreceive _)
    | intro _
    | apply Within.issue
    | apply Within.value
    | apply Within.bind
    | split
  all_goals exact hhandshake _ trivial

variable (hquote : ∀ report, allowed (.ocallQuoteMe report))
variable (hsend : ∀ payload channel,
  allowed (.auntieMsgSend (.ofPayload msgAttestationSynack payload) channel))
include hstash hquote hsend

theorem answerSyn_within (channel : ChannelRef) (msg1 : Pointer) (nonce : Digest) (gb : PublicKey)
    (sessionKey : SessionKey) (operatorReportData playerReportData : ReportData) :
    (answerSyn channel msg1 nonce gb sessionKey operatorReportData playerReportData).Within
      allowed keeps := by
  unfold answerSyn stashQuotes
  repeat' with_reducible first
    | exact dropStashedQuote_within hhandshake hstash
    | exact receiveAck_within hhandshake hreceive _ _
    | exact Within.issue (hsend _ _)
    | exact Within.issue (hquote _)
    | intro _
    | apply Within.issue
    | apply Within.value
    | apply Within.get_bind
    | apply Within.update
    | apply Within.bind
    | split
  all_goals first | exact hhandshake _ trivial | exact hstash _ _ ‹_›

/-- Of the globals the handshake only changes the stash, and of the messages it only sends the
SYN/ACK. -/
theorem mutualAttestation_within (tcrypto : Tcrypto) (numPlayers : Nat) (context : Pointer) :
    (mutualAttestation tcrypto numPlayers context).Within allowed keeps := by
  unfold mutualAttestation deriveSecrets
  repeat' with_reducible first
    | exact (getReportData_within _ _ _).mono fun c hc => hhandshake c hc.handshake
    | exact (getSessionKey_within _ _ _).mono fun c hc => hhandshake c hc.handshake
    | exact answerSyn_within hhandshake hreceive hstash hquote hsend _ _ _ _ _ _ _
    | exact Within.issue (hreceive _)
    | intro _
    | apply Within.issue
    | apply Within.value
    | apply Within.get_bind
    | apply Within.bind
    | split
  all_goals exact hhandshake _ trivial

omit hhandshake hreceive hquote hsend in
theorem mutualAttestation_sends (tcrypto : Tcrypto) (numPlayers : Nat) (context : Pointer) :
    (mutualAttestation tcrypto numPlayers context).Within (Call.Sends [msgAttestationSynack])
      keeps :=
  mutualAttestation_within (fun _ hc => hc.internal.sends _) (fun _ => trivial) hstash
    (fun _ => trivial) (fun _ _ => List.mem_singleton.mpr rfl) tcrypto numPlayers context

end Handshake

end Messages

end Frame

end Auntie.Source.Operator
