import Auntie.Source.Common.Payloads
import Auntie.Source.Common.Zcash

/-!
# Setup of the player's enclave

Embeds `player/trusted/mutual_attestation.c` and `player/trusted/setup.c`: the
handshake with the operator's enclave, the presentation of the quotes it broadcasts,
and the ECALL that runs both. The globals of the whole enclave are declared here.
-/

namespace Auntie.Source.Player
open Auntie.Interaction
open Blocks (Digest)

/-- The OCALLs of `auntie_player.edl` that hand output to the host. The output of the
functionality is passed as a pointer, which may be `NULL`. -/
inductive Callback where
  | ocallInitialize (context : Pointer) (depositAddress : Bytes)
  | ocallGetDeposits (context : Pointer) (depositTransaction : Bytes)
  | ocallSettle (context : Pointer) (payoutKey : Bytes) (output : Option Bytes) (outputLength : Nat)
  | ocallRefund (context : Pointer) (depositKey : Bytes)
  deriving DecidableEq

/-- `struct operator`. -/
structure Operator where
  struct : Pointer
  channel : ChannelRef
  quote : Buffer
  reportData : ReportData

abbrev sizeofOperator : Nat := 88

/-- `enum state` of `entry.c`. -/
inductive State where
  | uninitialized
  | initialized
  | deposited
  | gotDeposits
  | confirmedDeposits
  | settled
  | refunded
  | aborted
  deriving DecidableEq

/-- The static variables of the enclave, zero when it is loaded. -/
structure Globals where
  state : State := .uninitialized
  depositWallet : Option Wallet := none
  payoutWallet : Option Wallet := none
  functionalityOutput : Option Buffer := none
  functionalityOutputLength : Nat := 0
  depositAdvice : Option Pointer := none
  settlementSighash : Digest := FixedBytes.zero 32
  settlementTxid : Digest := FixedBytes.zero 32
  operator : Option Operator := none
  stash : Stash := {}

abbrev Code := Program (Call Callback) Globals

section MutualAttestation

/-- The callbacks the host makes inside `ocall_quote_me`. -/
def stashQuotes (callbacks : List QuoteCallback) : Code Unit :=
  modify fun globals => { globals with stash := callbacks.foldl Stash.put globals.stash }

def dropStashedQuote : Code Unit := do
  if let some quote := (← get).stash.quote then
    issue (.free quote.address)
  modify fun globals => { globals with stash := {} }

variable (tcrypto : Tcrypto)

/-- From the SYN/ACK on: the keys of the channel, the own quote and the ACK. -/
def answerSynack (quotingEnclave : TargetInfo) (channel : ChannelRef) (nonce : Digest)
    (ga : PublicKey) (gab : SharedKey) (msg2 : ReceivedMessage) : Code (Option Operator) := do
  let synack := Synack.decode msg2
  let some operatorQuote ← issue (.malloc synack.quote.length) | do
    issue (.channelTeardown channel)
    issue (.free msg2.address)
    return none
  let .ok sessionKey ← getSessionKey tcrypto ga synack.gb gab | do
    issue (.channelTeardown channel)
    issue (.free msg2.address)
    return none
  let channel := channel.encrypt sessionKey
  let .ok playerReportData ← getReportData tcrypto synack.nonce ga synack.gb | do
    issue (.channelTeardown channel)
    issue (.free msg2.address)
    return none
  let operatorReportData ← getReportData tcrypto nonce ga synack.gb
  issue (.free msg2.address)
  let .ok operatorReportData := operatorReportData | do
    issue (.channelTeardown channel)
    return none
  let some report ← issue (.sgxCreateReport quotingEnclave playerReportData) | do
    issue (.channelTeardown channel)
    return none
  let (ret, callbacks) ← issue (.ocallQuoteMe report)
  stashQuotes callbacks
  if ret ≠ 0 then
    issue (.channelTeardown channel)
    return none
  let some quote := (← get).stash.get | do
    issue (.channelTeardown channel)
    return none
  let some msg3 ← issue (.malloc (sizeofMessageHeader + quote.contents.length)) | do
    issue (.channelTeardown channel)
    dropStashedQuote
    return none
  dropStashedQuote
  let ret ← issue (.auntieMsgSend (.ofPayload msgAttestationAck quote.contents) channel)
  issue (.free msg3)
  if ret ≠ 0 then
    issue (.channelTeardown channel)
    return none
  let some struct ← issue (.malloc sizeofOperator) | do
    issue (.channelTeardown channel)
    return none
  return some ⟨struct, channel, ⟨operatorQuote, synack.quote⟩, operatorReportData⟩

/-- `mutual_attestation`. Without memory for the SYN it tears the channel down and goes on
with `NULL`. -/
def mutualAttestation (context : Pointer) (quotingEnclave : TargetInfo) (id : Nat) :
    Code (Option Operator) := do
  let some nonce ← issue (.sgxReadRand 32) | return none
  let some struct ← issue (.channelCreate context) | return none
  let channel := (ChannelRef.create struct).assignId 0
  if !(← issue .sgxEcc256OpenContext) then
    issue (.channelTeardown channel)
    return none
  let some (a, ga) ← issue .sgxEcc256CreateKeyPair | do
    issue .sgxEcc256CloseContext
    issue (.channelTeardown channel)
    return none
  let some msg1 ← issue (.malloc (sizeofMessageHeader + Syn.sizeof)) | do
    issue .sgxEcc256CloseContext
    issue (.channelTeardown channel)
    fault
  let syn : Syn := ⟨ga, id, nonce⟩
  let ret ← issue (.auntieMsgSend (.ofPayload msgAttestationSyn syn.encode) channel)
  issue (.free msg1)
  if ret ≠ 0 then
    issue .sgxEcc256CloseContext
    issue (.channelTeardown channel)
    return none
  let some msg2 ← issue (.auntieMsgReceive channel) | do
    issue .sgxEcc256CloseContext
    issue (.channelTeardown channel)
    return none
  if msg2.msgType ≠ msgAttestationSynack ∨ msg2.payload.length < Synack.sizeof then
    issue .sgxEcc256CloseContext
    issue (.channelTeardown channel)
    issue (.free msg2.address)
    return none
  let gab ← issue (.sgxEcc256ComputeSharedDhkey a (Synack.decode msg2).gb)
  issue .sgxEcc256CloseContext
  let some gab := gab | do
    issue (.channelTeardown channel)
    issue (.free msg2.address)
    return none
  answerSynack tcrypto quotingEnclave channel nonce ga gab msg2

end MutualAttestation

section PresentQuotes
variable (numPlayers : Nat)

/-- The quotes of the players at the given indices, the own one skipped: an error code, or
none. -/
def printPlayersQuotes (playerId : Nat) (msg : ReceivedMessage) : List Nat → Code (Option Int32)
  | [] => return none
  | i :: rest => do
    if i = sub32 playerId 1 then
      printPlayersQuotes playerId msg rest
    else
      let ret ← issue (.ocallPrintQuote (QuotesBroadcast.quote numPlayers msg i)
        (QuotesBroadcast.reportData msg i))
      if ret ≠ 0 then
        issue (.free msg.address)
        return some (-eio)
      printPlayersQuotes playerId msg rest

/-- `present_quotes`, on the operator the handshake returned. -/
def presentQuotes (operator : Operator) (playerId : Nat) : Code Int32 := do
  let some msg1 ← issue (.auntieMsgReceive operator.channel) | return -eio
  if msg1.msgType ≠ msgPlayersQuotesBroadcast then
    issue (.free msg1.address)
    return -eio
  if let some error ← printPlayersQuotes numPlayers playerId msg1 (List.range numPlayers) then
    return error
  issue (.free msg1.address)
  let ret ← issue (.ocallPrintQuote operator.quote.contents operator.reportData)
  if ret ≠ 0 then
    return -eio
  let some msg2 ← issue (.malloc sizeofMessageHeader) | return -enomem
  let ret ← issue (.auntieMsgSend (.ofPayload msgPlayersQuotesOk []) operator.channel)
  issue (.free msg2)
  if ret ≠ 0 then
    return ret
  let some msg3 ← issue (.auntieMsgReceive operator.channel) | return -eio
  if msg3.msgType ≠ msgSetupComplete then
    issue (.free msg3.address)
    return -eio
  issue (.free msg3.address)
  return 0

variable (tcrypto : Tcrypto)

def ecallConnectToOperatorImpl (context : Pointer) (playerId : Nat) : Code Int32 := do
  if (← get).operator.isSome then
    return -ebusy
  let (ret, quotingEnclave) ← issue .ocallGetQuotingEnclave
  if ret ≠ 0 then
    return ret
  let operator ← mutualAttestation tcrypto context quotingEnclave playerId
  modify fun globals => { globals with operator := operator }
  let some operator := operator | return -eio
  let ret ← presentQuotes numPlayers operator playerId
  if ret ≠ 0 then
    issue (.channelTeardown operator.channel)
    issue (.free operator.quote.address)
    issue (.free operator.struct)
    modify fun globals => { globals with operator := none }
    return ret
  return 0

end PresentQuotes

section Frame
open Program (Within)

/-- The setup only changes what belongs to it. -/
def SetupOnly (before last : Globals) : Prop :=
  ∃ operator stash, last = { before with operator := operator, stash := stash }

theorem SetupOnly.stash {before last : Globals} (h : SetupOnly before last) (stash : Stash) :
    SetupOnly before { last with stash := stash } := by
  obtain ⟨operator, _, rfl⟩ := h
  exact ⟨operator, stash, rfl⟩

theorem SetupOnly.operator {before last : Globals} (h : SetupOnly before last)
    (operator : Option Operator) : SetupOnly before { last with operator := operator } := by
  obtain ⟨_, stash, rfl⟩ := h
  exact ⟨operator, stash, rfl⟩

abbrev setupPermits : Permits Callback where
  messages := True

variable {allowed : {β : Type} → Call Callback β → Prop} {keeps : Globals → Prop}
  {tcrypto : Tcrypto} {before : Globals}

section Handshake
variable (hhandshake : ∀ {β : Type} (c : Call Callback β), c.Handshake → allowed c)
variable (hstash : ∀ (last : Globals) stash, keeps last → keeps { last with stash := stash })
variable (hquote : ∀ report, allowed (.ocallQuoteMe report))
variable (hsend : ∀ msgType payload channel, msgType ∈ [msgAttestationSyn, msgAttestationAck] →
  allowed (.auntieMsgSend (.ofPayload msgType payload) channel))
include hhandshake hstash

theorem dropStashedQuote_within : dropStashedQuote.Within allowed keeps := by
  unfold dropStashedQuote
  apply Within.get_bind
  intro globals _
  split
  · exact Within.bind (Within.issue (hhandshake _ trivial)) fun _ =>
      Within.update fun _ h => hstash _ _ h
  · exact Within.update fun _ h => hstash _ _ h

include hquote hsend

theorem answerSynack_within (quotingEnclave : TargetInfo) (channel : ChannelRef) (nonce : Digest)
    (ga : PublicKey) (gab : SharedKey) (msg2 : ReceivedMessage) :
    (answerSynack tcrypto quotingEnclave channel nonce ga gab msg2).Within allowed keeps := by
  unfold answerSynack stashQuotes
  repeat' with_reducible first
    | exact dropStashedQuote_within hhandshake hstash
    | exact (getSessionKey_within _ _ _).mono fun c hc => hhandshake c hc.handshake
    | exact (getReportData_within _ _ _).mono fun c hc => hhandshake c hc.handshake
    | exact Within.issue (hsend _ _ _ (by simp))
    | exact Within.issue (hquote _)
    | intro _
    | apply Within.issue
    | apply Within.value
    | apply Within.get_bind
    | apply Within.update
    | apply Within.bind
    | split
  all_goals first | exact hhandshake _ trivial | exact hstash _ _ ‹_›

/-- Of the globals the handshake only changes the stash, and of the messages it only sends the
SYN and the ACK. -/
theorem mutualAttestation_within (hfault : allowed .fault)
    (hreceive : ∀ channel, allowed (.auntieMsgReceive channel)) (context : Pointer)
    (quotingEnclave : TargetInfo) (id : Nat) :
    (mutualAttestation tcrypto context quotingEnclave id).Within allowed keeps := by
  unfold mutualAttestation
  repeat' with_reducible first
    | exact answerSynack_within hhandshake hstash hquote hsend _ _ _ _ _ _
    | exact fault_within hfault
    | exact Within.issue (hsend _ _ _ (by simp))
    | exact Within.issue (hreceive _)
    | intro _
    | apply Within.issue
    | apply Within.value
    | apply Within.bind
    | split
  all_goals exact hhandshake _ trivial

end Handshake

section Quotes
variable (hfree : ∀ address, allowed (.free address))
variable (hprint : ∀ quote reportData, allowed (.ocallPrintQuote quote reportData))
include hfree hprint

theorem printPlayersQuotes_within (numPlayers playerId : Nat) (msg : ReceivedMessage)
    (indices : List Nat) :
    (printPlayersQuotes numPlayers playerId msg indices).Within allowed keeps := by
  induction indices with
  | nil => exact Within.value _
  | cons i rest ih =>
    unfold printPlayersQuotes
    split
    · exact ih
    · refine Within.bind (Within.issue (hprint _ _)) fun ret => ?_
      split
      · exact Within.bind (Within.issue (hfree _)) fun _ => Within.value _
      · exact ih

/-- The quotes are shown and acknowledged without a change of the globals. -/
theorem presentQuotes_within (hmalloc : ∀ size, allowed (.malloc size))
    (hreceive : ∀ channel, allowed (.auntieMsgReceive channel))
    (hsend : ∀ channel, allowed (.auntieMsgSend (.ofPayload msgPlayersQuotesOk []) channel))
    (numPlayers : Nat) (operator : Operator) (playerId : Nat) :
    (presentQuotes numPlayers operator playerId).Within allowed keeps := by
  unfold presentQuotes
  repeat' with_reducible first
    | exact printPlayersQuotes_within hfree hprint _ _ _ _
    | exact Within.issue (hsend _)
    | exact Within.issue (hreceive _)
    | exact Within.issue (hprint _ _)
    | intro _
    | apply Within.issue
    | apply Within.value
    | apply Within.bind
    | split
  all_goals first | exact hfree _ | exact hmalloc _

end Quotes

/-- The setup only issues the calls of the setup and only changes what belongs to it. -/
theorem ecallConnectToOperatorImpl_within
    (hhandshake : ∀ {β : Type} (c : Call Callback β), c.Handshake → allowed c)
    (hfault : allowed .fault) (hreceive : ∀ channel, allowed (.auntieMsgReceive channel))
    (hask : allowed .ocallGetQuotingEnclave) (hquote : ∀ report, allowed (.ocallQuoteMe report))
    (hprint : ∀ quote reportData, allowed (.ocallPrintQuote quote reportData))
    (hsend : ∀ msgType payload channel,
      msgType ∈ [msgAttestationSyn, msgAttestationAck, msgPlayersQuotesOk] →
        allowed (.auntieMsgSend (.ofPayload msgType payload) channel))
    (numPlayers : Nat) (context : Pointer) (playerId : Nat) :
    (ecallConnectToOperatorImpl numPlayers tcrypto context playerId).Within allowed
      (SetupOnly before) := by
  have hfree : ∀ address, allowed (.free address) := fun _ => hhandshake _ trivial
  have hmalloc : ∀ size, allowed (.malloc size) := fun _ => hhandshake _ trivial
  have hexchanged : ∀ msgType payload channel, msgType ∈ [msgAttestationSyn, msgAttestationAck] →
      allowed (.auntieMsgSend (.ofPayload msgType payload) channel) :=
    fun _ _ _ htype => hsend _ _ _ (List.mem_append_left [msgPlayersQuotesOk] htype)
  unfold ecallConnectToOperatorImpl
  repeat' with_reducible first
    | exact mutualAttestation_within hhandshake (fun _ stash h => h.stash stash) hquote hexchanged
        hfault hreceive _ _ _
    | exact presentQuotes_within hfree hprint hmalloc hreceive (fun _ => hsend _ _ _ (by simp))
        _ _ _
    | intro _
    | apply Within.issue
    | apply Within.value
    | apply Within.get_bind
    | apply Within.update
    | apply Within.bind
    | split
  all_goals first
    | exact hask
    | exact hhandshake _ trivial
    | exact SetupOnly.operator ‹_› _

theorem ecallConnectToOperatorImpl_permitted (numPlayers : Nat) (context : Pointer)
    (playerId : Nat) :
    (ecallConnectToOperatorImpl numPlayers tcrypto context playerId).Within
      (Call.Permitted setupPermits) (SetupOnly before) :=
  ecallConnectToOperatorImpl_within (fun _ hc => hc.internal.permitted setupPermits) trivial
    (fun _ => trivial) trivial (fun _ => trivial) (fun _ _ => trivial) (fun _ _ _ _ => trivial)
    numPlayers context playerId

end Frame

end Auntie.Source.Player
