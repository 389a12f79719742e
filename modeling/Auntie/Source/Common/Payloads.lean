import Auntie.Segments
import Auntie.Source.Common.Enclave

/-!
# Payloads of the messages between the enclaves

The structures of `mutual_attestation_common.h:41-61` and `core_common.h:5-29`: how a
sender fills them and where a receiver looks for each field. A receiver reads at the
offsets it finds; what lies outside the payload is the heap behind it.

`get_report_data` and `get_session_key` of `mutual_attestation_common.c` stand at the
end.
-/

namespace Auntie.Source
open Auntie.Interaction Segments
open Blocks (Digest)

/-- `auntie_msg_create` and the filling of its payload. The size is kept in 32 bits, and
only so many bytes are sent. -/
def Message.ofPayload (msgType : Nat) (payload : Bytes) : Message :=
  ⟨msgType, payload.take (payload.length % 2 ^ 32)⟩

theorem Message.ofPayload_payload {msgType : Nat} {payload : Bytes}
    (h : payload.length < 2 ^ 32) : (Message.ofPayload msgType payload).payload = payload := by
  rw [Message.ofPayload, Nat.mod_eq_of_lt h, List.take_length]

/-- `struct auntie_msg_attestation_syn`. -/
structure Syn where
  ga : PublicKey
  id : Nat
  nonce : Digest

namespace Syn

abbrev sizeof : Nat := 100

def encode (syn : Syn) : Bytes := syn.ga.val ++ leBytes 4 syn.id ++ syn.nonce.val

theorem encode_length (syn : Syn) : syn.encode.length = sizeof := by
  simp [encode, syn.ga.property, syn.nonce.property]

def decode (msg : ReceivedMessage) : Syn where
  ga := msg.readArray 0 64
  id := msg.readU32 64
  nonce := msg.readArray 68 32

end Syn

/-- `struct auntie_msg_attestation_synack`. -/
structure Synack where
  gb : PublicKey
  nonce : Digest
  quote : Bytes

namespace Synack

abbrev sizeof : Nat := 96

def encode (synack : Synack) : Bytes := synack.gb.val ++ synack.nonce.val ++ synack.quote

/-- The quote is all that follows the nonce. -/
def decode (msg : ReceivedMessage) : Synack where
  gb := msg.readArray 0 64
  nonce := msg.readArray 64 32
  quote := msg.read sizeof (sub32 msg.payload.length 96)

end Synack

/-! `struct auntie_msg_players_quotes_broadcast`. -/

namespace QuotesBroadcast

def sizeof (numPlayers : Nat) : Nat := 68 * numPlayers

/-- The report data of each player, the offsets of the quotes, and the quotes. -/
def encode (players : List (ReportData × Bytes)) : Bytes :=
  players.flatMap (·.1.val) ++
    (offsetsFrom 0 (players.map Prod.snd)).flatMap (fun offset => leBytes 4 offset) ++
    (players.map Prod.snd).flatten

def reportData (msg : ReceivedMessage) (i : Nat) : ReportData := msg.readArray (64 * i) 64

def quoteOffset (numPlayers : Nat) (msg : ReceivedMessage) (i : Nat) : Nat :=
  msg.readU32 (64 * numPlayers + 4 * i)

def quoteEnd (numPlayers : Nat) (msg : ReceivedMessage) (i : Nat) : Nat :=
  if i + 1 < numPlayers then quoteOffset numPlayers msg (i + 1)
  else sub64 msg.payload.length (sizeof numPlayers) % 2 ^ 32

def quote (numPlayers : Nat) (msg : ReceivedMessage) (i : Nat) : Bytes :=
  msg.read (sizeof numPlayers + quoteOffset numPlayers msg i)
    (sub32 (quoteEnd numPlayers msg i) (quoteOffset numPlayers msg i))

end QuotesBroadcast

/-! `struct auntie_msg_deposit_and_input`. -/

namespace DepositAndInput

abbrev sizeof : Nat := 24

/-- The deposit transaction, the input, the payout address and the advice, each at the
offset where the one before it ends; the offsets are kept in 32 bits. -/
def encode (depositAmount : Nat) (depositTransaction input payoutAddress advice : Bytes) :
    Bytes :=
  leBytes 8 depositAmount ++
    (offsetsFrom 0 [depositTransaction, input, payoutAddress, advice]).flatMap
      (fun offset => leBytes 4 offset) ++
    (depositTransaction ++ input ++ payoutAddress ++ advice)

def depositAmount (msg : ReceivedMessage) : Nat := msg.readU64 0
def depositTransactionOffset (msg : ReceivedMessage) : Nat := msg.readU32 8
def inputOffset (msg : ReceivedMessage) : Nat := msg.readU32 12
def payoutAddressOffset (msg : ReceivedMessage) : Nat := msg.readU32 16
def adviceOffset (msg : ReceivedMessage) : Nat := msg.readU32 20

/-- The bytes at an offset of `data`. -/
def data (msg : ReceivedMessage) (offset length : Nat) : Bytes := msg.read (sizeof + offset) length

def depositTransaction (msg : ReceivedMessage) : Bytes :=
  data msg (depositTransactionOffset msg) (sub32 (inputOffset msg) (depositTransactionOffset msg))

def inputLength (msg : ReceivedMessage) : Nat := sub32 (payoutAddressOffset msg) (inputOffset msg)

/-- What `ecall_clear_contract_impl` takes for the input: as many bytes as the input has, from
where the payout address starts. -/
def input (msg : ReceivedMessage) : Bytes :=
  data msg (payoutAddressOffset msg) (inputLength msg)

def payoutAddress (msg : ReceivedMessage) : Bytes :=
  data msg (payoutAddressOffset msg) (sub32 (adviceOffset msg) (payoutAddressOffset msg))

/-- The advice ends with the payload; its length is kept in 32 bits. -/
def advice (msg : ReceivedMessage) : Bytes :=
  data msg (adviceOffset msg)
    (sub64 (sub64 msg.payload.length sizeof) (adviceOffset msg) % 2 ^ 32)

end DepositAndInput

/-! `struct auntie_msg_clear_contract`. -/

namespace ClearContract

def sizeof (numPlayers : Nat) : Nat := 32 + 32 + 4 + 4 * (numPlayers + 1)

def encode (sighash txid : Digest) (output : Bytes) (depositTransactions : List Bytes) : Bytes :=
  sighash.val ++ txid.val ++
    (offsetsFrom 0 (output :: depositTransactions)).flatMap (fun offset => leBytes 4 offset) ++
    (output :: depositTransactions).flatten

def settlementSighash (msg : ReceivedMessage) : Digest := msg.readArray 0 32
def settlementTxid (msg : ReceivedMessage) : Digest := msg.readArray 32 32
def outputOffset (msg : ReceivedMessage) : Nat := msg.readU32 64
def depositTransactionsOffset (msg : ReceivedMessage) (i : Nat) : Nat := msg.readU32 (68 + 4 * i)

def outputLength (msg : ReceivedMessage) : Nat :=
  sub32 (depositTransactionsOffset msg 0) (outputOffset msg)

variable (numPlayers : Nat)

def output (msg : ReceivedMessage) : Bytes :=
  msg.read (sizeof numPlayers + outputOffset msg) (outputLength msg)

/-- One of the first `numPlayers` deposit transactions: it ends where the next begins. -/
def depositTransaction (msg : ReceivedMessage) (i : Nat) : Bytes :=
  msg.read (sizeof numPlayers + depositTransactionsOffset msg i)
    (sub32 (depositTransactionsOffset msg (i + 1)) (depositTransactionsOffset msg i))

/-- The last deposit transaction ends with the payload. -/
def lastDepositTransaction (msg : ReceivedMessage) : Bytes :=
  msg.read (sizeof numPlayers + depositTransactionsOffset msg numPlayers)
    (sub64 (sub64 msg.payload.length (sizeof numPlayers))
      (depositTransactionsOffset msg numPlayers))

end ClearContract

/-! `struct auntie_msg_confirm_deposits`. -/

namespace ConfirmDeposits

def encode (signature : Bytes) : Bytes := leBytes 4 signature.length ++ signature

def signature (msg : ReceivedMessage) : Bytes := msg.read 4 (msg.readU32 0)

end ConfirmDeposits

section Attestation
variable {Callback σ : Type} (tcrypto : Tcrypto)

/-- The digest of nonce and shares in the leading 32 bytes, the rest zero. -/
def reportDataOf (nonce : Digest) (ga gb : PublicKey) : ReportData :=
  ⟨(tcrypto.sha256 (nonce.val ++ ga.val ++ gb.val)).val ++ List.replicate 32 0, by
    rw [List.length_append, (tcrypto.sha256 _).property, List.length_replicate]⟩

/-- `"auntiecontract\x01"` with its terminator. -/
def domainSeparator : Bytes :=
  [0x61, 0x75, 0x6e, 0x74, 0x69, 0x65, 0x63, 0x6f, 0x6e, 0x74, 0x72, 0x61, 0x63, 0x74, 0x01, 0x00]

/-- `CMAC_k(domain_separator | g^a | g^b)` with `k = CMAC_0(g^{ab})`. -/
def sessionKeyOf (ga gb : PublicKey) (gab : SharedKey) : SessionKey :=
  tcrypto.cmac128 (tcrypto.cmac128 (FixedBytes.zero 16) gab.val)
    (domainSeparator ++ ga.val ++ gb.val)

def getReportData (nonce : Digest) (ga gb : PublicKey) :
    Code Callback σ (Except Int32 ReportData) := do
  if !(← issue .sgxSha256Init) then
    return .error (-enomem)
  return .ok (reportDataOf tcrypto nonce ga gb)

def getSessionKey (ga gb : PublicKey) (gab : SharedKey) :
    Code Callback σ (Except Int32 SessionKey) := do
  if !(← issue .sgxRijndael128CmacMsg) then
    return .error (-efault)
  if !(← issue .sgxCmac128Init) then
    return .error (-enomem)
  return .ok (sessionKeyOf tcrypto ga gb gab)

section Frame
open Program (Within)
variable {keeps : σ → Prop} {tcrypto}

theorem getReportData_within (nonce : Digest) (ga gb : PublicKey) :
    (getReportData tcrypto nonce ga gb : Code Callback σ _).Within Call.Digests keeps := by
  refine Within.bind (Within.issue trivial) fun success => ?_
  split
  · exact Within.value _
  · exact Within.value _

theorem getSessionKey_within (ga gb : PublicKey) (gab : SharedKey) :
    (getSessionKey tcrypto ga gb gab : Code Callback σ _).Within Call.Digests keeps := by
  refine Within.bind (Within.issue trivial) fun success => ?_
  split
  · exact Within.value _
  · refine Within.bind (Within.issue trivial) fun success => ?_
    split
    · exact Within.value _
    · exact Within.value _

end Frame

end Attestation

/-- The quote handed back by `ecall_quote_me_callback` and kept until it is sent. -/
structure Stash where
  quote : Option Buffer := none
  size : Nat := 0

namespace Stash

/-- `stash_quote`: a failed allocation leaves `NULL` and the old size. -/
def put (stash : Stash) (callback : QuoteCallback) : Stash :=
  match callback.stash with
  | none => { stash with quote := none }
  | some address => ⟨some ⟨address, callback.quote⟩, callback.quote.length⟩

/-- The quote of a stash that is neither `NULL` nor of size zero. -/
def get (stash : Stash) : Option Buffer := if stash.size = 0 then none else stash.quote

end Stash

end Auntie.Source
