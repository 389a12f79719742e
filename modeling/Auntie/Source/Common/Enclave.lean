import Auntie.Source.Common.Channel
import Auntie.Source.Zcash.BlockRecords

/-!
# What an enclave calls

Both enclaves are programs over the calls of this module: the OCALLs, the SGX
runtime and its allocator, the Rust library behind `zcash.h`, and the messages of
`messages.h`. `Callback` is the part that differs, the OCALLs of one enclave that
carry its output to the host. Every answer is arbitrary within its type, and a call
may go unanswered: the OCALL failed and the enclave aborted, or the host keeps it.

Pointers are numbers, `NULL` is `none`. Reading through a `NULL` pointer and a Rust
panic are the call `fault`, which has no answer. A received message carries the
bytes that follow it in the heap, as the code reads payloads at offsets it does not
check. `ocall_print` is omitted.
-/

namespace Auntie.Source
open Auntie.Interaction
open Blocks (Digest)

abbrev Pointer := Nat

/-- An allocation and what it holds. -/
structure Buffer where
  address : Pointer
  contents : Bytes
  deriving DecidableEq

/-- `struct channel` as far as messages need it; the session key is present once
`channel_encrypt` has been called. -/
structure ChannelRef where
  address : Pointer
  id : Nat
  sessionKey : Option SessionKey
  deriving DecidableEq

namespace ChannelRef

def create (address : Pointer) : ChannelRef := ⟨address, 2 ^ 32 - 1, none⟩

def assignId (channel : ChannelRef) (id : Nat) : ChannelRef := { channel with id := id }

def encrypt (channel : ChannelRef) (sessionKey : SessionKey) : ChannelRef :=
  { channel with sessionKey := some sessionKey }

end ChannelRef

section Messages

abbrev msgAttestationSyn : Nat := 0
abbrev msgAttestationSynack : Nat := 1
abbrev msgAttestationAck : Nat := 2
abbrev msgPlayersQuotesBroadcast : Nat := 3
abbrev msgPlayersQuotesOk : Nat := 4
abbrev msgSetupComplete : Nat := 5
abbrev msgDepositAndInput : Nat := 6
abbrev msgClearContract : Nat := 7
abbrev msgConfirmDeposits : Nat := 8
abbrev msgTypeCount : Nat := 9

/-- `struct auntie_msg`. -/
structure Message where
  msgType : Nat
  payload : Bytes
  deriving DecidableEq

abbrev sizeofMessageHeader : Nat := 8

/-- What `auntie_msg_receive` returns: it has checked the type, and the header declares
the size of the payload in 32 bits. -/
structure ReceivedMessage extends Message where
  address : Pointer
  beyond : Nat → UInt8
  type_lt : msgType < msgTypeCount
  size_lt : payload.length < 2 ^ 32

namespace ReceivedMessage

/-- The heap from the payload on. -/
def memory (msg : ReceivedMessage) (index : Nat) : UInt8 :=
  msg.payload.getD index (msg.beyond index)

def read (msg : ReceivedMessage) (offset length : Nat) : Bytes :=
  (List.range length).map fun index => msg.memory (offset + index)

def readArray (msg : ReceivedMessage) (offset length : Nat) : FixedBytes length :=
  ⟨msg.read offset length, by simp [read]⟩

def readU32 (msg : ReceivedMessage) (offset : Nat) : Nat := leValue (msg.read offset 4)

def readU64 (msg : ReceivedMessage) (offset : Nat) : Nat := leValue (msg.read offset 8)

theorem read_length (msg : ReceivedMessage) (offset length : Nat) :
    (msg.read offset length).length = length := by simp [read]

/-- Inside the payload the heap holds the payload. -/
theorem read_inside (msg : ReceivedMessage) {offset length : Nat}
    (h : offset + length ≤ msg.payload.length) :
    msg.read offset length = (msg.payload.drop offset).take length := by
  apply List.ext_getElem
  · rw [read_length, List.length_take, List.length_drop]
    omega
  · intro index hread htake
    rw [read_length] at hread
    simp only [read, memory, List.getElem_map, List.getElem_range, List.getElem_take,
      List.getElem_drop]
    rw [List.getD_eq_getElem?_getD, List.getElem?_eq_getElem (by omega), Option.getD_some]

/-- A range inside one part of the payload is read from that part. -/
theorem read_part {msg : ReceivedMessage} {front middle back : Bytes} {base offset length : Nat}
    (h : msg.payload = front ++ middle ++ back) (hbase : front.length = base)
    (hinside : offset + length ≤ middle.length) :
    msg.read (base + offset) length = (middle.drop offset).take length := by
  have hlength : length ≤ (middle.drop offset).length := by
    rw [List.length_drop]
    omega
  rw [msg.read_inside (by simp [h]; omega), h, List.append_assoc, ← hbase, ← List.drop_drop,
    List.drop_left, List.drop_append_of_le_length (by omega),
    List.take_append_of_le_length hlength]

/-- A whole part of the payload. -/
theorem read_field {msg : ReceivedMessage} {front field back : Bytes} {offset length : Nat}
    (h : msg.payload = front ++ field ++ back) (hfront : front.length = offset)
    (hfield : field.length = length) : msg.read offset length = field := by
  have hpart : msg.read (offset + 0) length = (field.drop 0).take length :=
    read_part h hfront (by rw [hfield, Nat.zero_add])
  rw [Nat.add_zero, List.drop_zero, ← hfield, List.take_length] at hpart
  rw [← hfield]
  exact hpart

end ReceivedMessage

/-- Unsigned subtraction of `uint32_t` values. -/
def sub32 (a b : Nat) : Nat := (a + 2 ^ 32 - b) % 2 ^ 32

/-- Unsigned subtraction of `size_t` values. -/
def sub64 (a b : Nat) : Nat := (a + 2 ^ 64 - b) % 2 ^ 64

theorem sub32_of_le {a b : Nat} (h : b ≤ a) (ha : a < 2 ^ 32) : sub32 a b = a - b := by
  unfold sub32
  omega

theorem sub64_of_le {a b : Nat} (h : b ≤ a) (ha : a < 2 ^ 64) : sub64 a b = a - b := by
  unfold sub64
  omega

end Messages

section Crypto

abbrev ReportData := FixedBytes 64
abbrev TargetInfo := FixedBytes 512
abbrev Report := FixedBytes 432
abbrev PrivateKey := FixedBytes 32
abbrev PublicKey := FixedBytes 64
abbrev SharedKey := FixedBytes 32

/-- The functions of `sgx_tcrypto` that have no state. -/
structure Tcrypto where
  sha256 : Bytes → FixedBytes 32
  cmac128 : FixedBytes 16 → Bytes → FixedBytes 16

/-- One `ecall_quote_me_callback` inside `ocall_quote_me`, with what its `malloc` returned. -/
structure QuoteCallback where
  quote : Bytes
  stash : Option Pointer
  deriving DecidableEq

end Crypto

/-- Everything the results are parametric in. -/
structure Deployment where
  build : Build
  crates : Blocks.Crates
  tcrypto : Tcrypto

/-- The calls of an enclave, each with the type of its answers. A status answers whether
it is `SGX_SUCCESS`. -/
inductive Call (Callback : Type) : Type → Type where
  | callback (output : Callback) : Call Callback Int32
  | fault : Call Callback Empty
  -- SGX
  | malloc (size : Nat) : Call Callback (Option Pointer)
  | free (address : Pointer) : Call Callback Unit
  | sgxReadRand (size : Nat) : Call Callback (Option (FixedBytes size))
  | sgxEcc256OpenContext : Call Callback Bool
  | sgxEcc256CreateKeyPair : Call Callback (Option (PrivateKey × PublicKey))
  | sgxEcc256ComputeSharedDhkey (own : PrivateKey) (peer : PublicKey) :
      Call Callback (Option SharedKey)
  | sgxEcc256CloseContext : Call Callback Unit
  | sgxSha256Init : Call Callback Bool
  | sgxRijndael128CmacMsg : Call Callback Bool
  | sgxCmac128Init : Call Callback Bool
  | sgxCreateReport (target : TargetInfo) (data : ReportData) : Call Callback (Option Report)
  | ocallGetQuotingEnclave : Call Callback (Int32 × TargetInfo)
  | ocallQuoteMe (report : Report) : Call Callback (Int32 × List QuoteCallback)
  | ocallPrintQuote (quote : Bytes) (reportData : ReportData) : Call Callback Int32
  -- channel.h and messages.h
  | channelCreate (context : Pointer) : Call Callback (Option Pointer)
  | channelTeardown (channel : ChannelRef) : Call Callback Unit
  | auntieMsgReceive (channel : ChannelRef) : Call Callback (Option ReceivedMessage)
  | auntieMsgSend (msg : Message) (channel : ChannelRef) : Call Callback Int32
  -- zcash_ffi
  | zcashCreateKey : Call Callback (Option Pointer)
  | zcashReleaseKey (key : Pointer) : Call Callback Unit
  | zcashDeriveAddress (key : Pointer) : Call Callback (Option Pointer)
  | zcashReleaseAddress (address : Pointer) : Call Callback Unit
  | zcashExportKeyImpl (key : Pointer) : Call Callback (FixedBytes 32)
  | zcashExportAddressImpl (address : Pointer) : Call Callback (FixedBytes 43)
  | zcashExportAdviceImpl (advice : Pointer) : Call Callback (FixedBytes 128)
  | zcashExportSignatureImpl (signature : Pointer) : Call Callback (FixedBytes 64)
  | zcashGetRawTransactionLength (transaction : Pointer) : Call Callback Nat
  | zcashExportTransactionImpl (transaction : Pointer) (length : Nat) :
      Call Callback (FixedBytes length)
  | zcashImportAddress (raw : Bytes) : Call Callback (Option Pointer)
  | zcashImportAdvice (raw : Bytes) : Call Callback (Option Pointer)
  | zcashImportTransaction (raw : Bytes) : Call Callback (Option Pointer)
  | zcashImportSignature (raw : Bytes) : Call Callback (Option Pointer)
  | zcashCreateAdvice (key : Pointer) : Call Callback (Option Pointer)
  | zcashReleaseAdvice (advice : Pointer) : Call Callback Unit
  | zcashReleaseTransaction (transaction : Pointer) : Call Callback Unit
  | zcashReleasePartialTransaction (transaction : Pointer) : Call Callback Unit
  | zcashReleaseSignature (signature : Pointer) : Call Callback Unit
  | zcashDepositedAmount (transaction key : Pointer) : Call Callback Nat
  | zcashCreateTransaction (inputs : List Pointer) (payouts : List Nat)
      (payoutAddresses advices : List Pointer) (merklePaths : Bytes) (memo : FixedBytes 512) :
      Call Callback (Option Pointer)
  | zcashHashTransaction (transaction : Pointer) : Call Callback (Digest × Digest)
  | zcashSignTransaction (key advice : Pointer) (sighash : Digest) :
      Call Callback (Option Pointer)
  | zcashAuthorizeTransaction (transaction : Pointer) (signatures : List Pointer) :
      Call Callback (Option Pointer)
  -- memo.h
  | getSettlementMemo : Call Callback (FixedBytes 512)

/-- Which of the calls that matter beyond the enclave a piece of code may make; all
others are free. -/
structure Permits (Callback : Type) where
  outputs : Callback → Prop := fun _ => False
  messages : Prop := False
  signs : Prop := False
  authorizes : Prop := False

def Call.Permitted {Callback : Type} (permits : Permits Callback) {β : Type} :
    Call Callback β → Prop
  | .callback output => permits.outputs output
  | .auntieMsgReceive _ | .auntieMsgSend _ _ => permits.messages
  | .zcashSignTransaction _ _ _ => permits.signs
  | .zcashAuthorizeTransaction _ _ => permits.authorizes
  | _ => True

/-- The calls that only matter inside the enclave. -/
def Call.Internal {Callback β : Type} : Call Callback β → Prop
  | .callback _ | .auntieMsgReceive _ | .auntieMsgSend _ _ | .zcashSignTransaction _ _ _ => False
  | .zcashAuthorizeTransaction _ _ | .zcashCreateTransaction _ _ _ _ _ _ => False
  | _ => True

theorem Call.Internal.permitted {Callback β : Type} {c : Call Callback β} (h : c.Internal)
    (permits : Permits Callback) : c.Permitted permits := by
  cases c with
  | callback | auntieMsgReceive | auntieMsgSend | zcashSignTransaction => exact absurd h id
  | zcashAuthorizeTransaction => exact absurd h id
  | _ => trivial

/-- The calls of a handshake that carry no message and ask for no quote. -/
def Call.Handshake {Callback β : Type} : Call Callback β → Prop
  | .malloc _ | .free _ | .channelCreate _ | .channelTeardown _ | .sgxReadRand _ => True
  | .sgxEcc256OpenContext | .sgxEcc256CreateKeyPair | .sgxEcc256ComputeSharedDhkey _ _ => True
  | .sgxEcc256CloseContext | .sgxRijndael128CmacMsg | .sgxCmac128Init => True
  | .sgxSha256Init | .sgxCreateReport _ _ => True
  | _ => False

theorem Call.Handshake.internal {Callback β : Type} {c : Call Callback β} (h : c.Handshake) :
    c.Internal := by
  cases c <;> trivial

/-- The calls that the keys and the report data are computed with. -/
def Call.Digests {Callback β : Type} : Call Callback β → Prop
  | .sgxRijndael128CmacMsg | .sgxCmac128Init | .sgxSha256Init => True
  | _ => False

theorem Call.Digests.handshake {Callback β : Type} {c : Call Callback β} (h : c.Digests) :
    c.Handshake := by
  cases c <;> trivial

/-- Of the messages, those of the given types may be sent. -/
def Call.Sends {Callback β : Type} (types : List Nat) : Call Callback β → Prop
  | .auntieMsgSend msg _ => msg.msgType ∈ types
  | _ => True

theorem Call.Internal.sends {Callback β : Type} {c : Call Callback β} (h : c.Internal)
    (types : List Nat) : c.Sends types := by
  cases c with
  | auntieMsgSend => exact absurd h id
  | _ => trivial

/-- Code that may not exchange messages sends none. -/
theorem Call.Permitted.sends {Callback β : Type} {permits : Permits Callback}
    {c : Call Callback β} (h : c.Permitted permits) (hmessages : ¬ permits.messages) :
    c.Sends [] := by
  cases c with
  | auntieMsgSend => exact absurd h hmessages
  | _ => trivial

theorem within_sends {Callback σ α : Type} {p : Program (Call Callback) σ α} {keeps : σ → Prop}
    (h : p.Within Call.Internal keeps) {types : List Nat} : p.Within (Call.Sends types) keeps :=
  h.mono fun _ hc => hc.sends types

theorem within_permitted {Callback σ α : Type} {p : Program (Call Callback) σ α}
    {keeps : σ → Prop} (h : p.Within Call.Internal keeps) {permits : Permits Callback} :
    p.Within (Call.Permitted permits) keeps :=
  h.mono fun _ hc => hc.permitted permits

abbrev Code (Callback σ : Type) := Program (Call Callback) σ

section Pointers
variable {Callback σ α : Type}

/-- The enclave is lost. -/
def fault : Code Callback σ α := do
  let answer ← issue .fault
  nomatch answer

/-- Reading through a pointer. -/
def deref : Option α → Code Callback σ α
  | some value => pure value
  | none => fault

variable {M : Type*} {mon : Monitor (Call Callback) σ M} {post : α → σ → M → Prop}
  {state : σ} {m : M}

theorem fault_within {allowed : {β : Type} → Call Callback β → Prop} {keeps : σ → Prop}
    (h : allowed (.fault : Call Callback Empty)) :
    (fault : Code Callback σ α).Within allowed keeps := ⟨h, fun answer => Empty.elim answer⟩

theorem deref_within {allowed : {β : Type} → Call Callback β → Prop} {keeps : σ → Prop}
    (h : allowed (.fault : Call Callback Empty)) (pointer : Option α) :
    (deref pointer : Code Callback σ α).Within allowed keeps := by
  cases pointer with
  | none => exact fault_within h
  | some value => exact Program.Within.value value

@[simp] theorem wp_fault :
    wp mon post (fault : Code Callback σ α) state m ↔ mon.safe state m .fault := by
  simp [fault]

@[simp] theorem wp_deref_some {value : α} :
    wp mon post (deref (some value) : Code Callback σ α) state m ↔ post value state m := Iff.rfl

@[simp] theorem wp_deref_none :
    wp mon post (deref none : Code Callback σ α) state m ↔ mon.safe state m .fault := wp_fault

end Pointers

section Traffic
variable {Callback : Type}

def Call.sends {β : Type} : Call Callback β → List (Message × ChannelRef)
  | .auntieMsgSend msg channel => [(msg, channel)]
  | _ => []

def Call.arrivals {β : Type} : Call Callback β → β → List (ChannelRef × ReceivedMessage)
  | .auntieMsgReceive channel, msg => msg.toList.map (channel, ·)
  | _, _ => []

/-- The messages sent, each with its channel. -/
def sentIn (events : List (Event (Call Callback))) : List (Message × ChannelRef) :=
  events.flatMap fun
    | .issued c => c.sends
    | .answered _ _ => []

/-- The messages that have arrived, each with its channel. -/
def arrivedIn (events : List (Event (Call Callback))) : List (ChannelRef × ReceivedMessage) :=
  events.flatMap fun
    | .issued _ => []
    | .answered c answer => c.arrivals answer

@[simp] theorem sentIn_append (first second : List (Event (Call Callback))) :
    sentIn (first ++ second) = sentIn first ++ sentIn second := List.flatMap_append

@[simp] theorem arrivedIn_append (first second : List (Event (Call Callback))) :
    arrivedIn (first ++ second) = arrivedIn first ++ arrivedIn second := List.flatMap_append

variable {events : List (Event (Call Callback))} {channel : ChannelRef}

theorem mem_sentIn {msg : Message} :
    (msg, channel) ∈ sentIn events ↔ .issued (.auntieMsgSend msg channel) ∈ events := by
  constructor
  · intro h
    obtain ⟨event, hevent, hsent⟩ := List.mem_flatMap.mp h
    cases event with
    | issued c =>
      cases c with
      | auntieMsgSend =>
        cases List.mem_singleton.mp hsent
        exact hevent
      | _ => cases hsent
    | answered c answer => cases hsent
  · exact fun h => List.mem_flatMap.mpr ⟨_, h, List.mem_singleton.mpr rfl⟩

theorem mem_arrivedIn {msg : ReceivedMessage} :
    (channel, msg) ∈ arrivedIn events ↔
      .answered (.auntieMsgReceive channel) (some msg) ∈ events := by
  constructor
  · intro h
    obtain ⟨event, hevent, harrived⟩ := List.mem_flatMap.mp h
    cases event with
    | issued c => cases harrived
    | answered c answer =>
      cases c with
      | auntieMsgReceive other =>
        cases answer with
        | none => cases harrived
        | some received =>
          cases List.mem_singleton.mp harrived
          exact hevent
      | _ => cases harrived
  · exact fun h => List.mem_flatMap.mpr ⟨_, h, List.mem_singleton.mpr rfl⟩

end Traffic

section Host
open Blocks (zeroCrates zeroBuild)

def zeroDeployment : Deployment where
  build := zeroBuild
  crates := zeroCrates
  tcrypto := ⟨fun _ => FixedBytes.zero 32, fun _ _ => FixedBytes.zero 16⟩

/-- A message as it arrives, zero bytes behind it in the heap. -/
def Message.received (msg : Message) (htype : msg.msgType < msgTypeCount)
    (hsize : msg.payload.length < 2 ^ 32) : ReceivedMessage :=
  ⟨msg, 1, fun _ => 0, htype, hsize⟩

/-- A host on which every call succeeds, the messages that arrive and the values its
callbacks return apart. -/
def obligingHost {Callback : Type} (receive : Nat → ChannelRef → Option ReceivedMessage)
    (callback : Nat → Int32) {β : Type} (time : Nat) : Call Callback β → Option β
  | .callback _ => some (callback time)
  | .malloc _ => some (some 1)
  | .free _ => some ()
  | .sgxReadRand size => some (some (FixedBytes.zero size))
  | .sgxEcc256OpenContext => some true
  | .sgxEcc256CreateKeyPair => some (some (FixedBytes.zero 32, FixedBytes.zero 64))
  | .sgxEcc256ComputeSharedDhkey _ _ => some (some (FixedBytes.zero 32))
  | .sgxEcc256CloseContext => some ()
  | .sgxSha256Init => some true
  | .sgxRijndael128CmacMsg => some true
  | .sgxCmac128Init => some true
  | .sgxCreateReport _ _ => some (some (FixedBytes.zero 432))
  | .ocallGetQuotingEnclave => some (0, FixedBytes.zero 512)
  | .ocallQuoteMe _ => some (0, [⟨[1], some 1⟩])
  | .ocallPrintQuote _ _ => some 0
  | .channelCreate context => some (some context)
  | .channelTeardown _ => some ()
  | .auntieMsgReceive channel => some (receive time channel)
  | .auntieMsgSend _ _ => some 0
  | .zcashCreateKey => some (some 1)
  | .zcashReleaseKey _ => some ()
  | .zcashDeriveAddress _ => some (some 1)
  | .zcashReleaseAddress _ => some ()
  | .zcashExportKeyImpl _ => some (FixedBytes.zero 32)
  | .zcashExportAddressImpl _ => some (FixedBytes.zero 43)
  | .zcashExportAdviceImpl _ => some (FixedBytes.zero 128)
  | .zcashExportSignatureImpl _ => some (FixedBytes.zero 64)
  | .zcashGetRawTransactionLength _ => some 1
  | .zcashExportTransactionImpl _ length => some (FixedBytes.zero length)
  | .zcashImportAddress _ => some (some 1)
  | .zcashImportAdvice _ => some (some 1)
  | .zcashImportTransaction _ => some (some 1)
  | .zcashImportSignature _ => some (some 1)
  | .zcashCreateAdvice _ => some (some 1)
  | .zcashReleaseAdvice _ => some ()
  | .zcashReleaseTransaction _ => some ()
  | .zcashReleasePartialTransaction _ => some ()
  | .zcashReleaseSignature _ => some ()
  | .zcashDepositedAmount _ _ => some 1000000
  | .zcashCreateTransaction _ _ _ _ _ _ => some (some 1)
  | .zcashHashTransaction _ => some (FixedBytes.zero 32, FixedBytes.zero 32)
  | .zcashSignTransaction _ _ _ => some (some 1)
  | .zcashAuthorizeTransaction _ _ => some (some 1)
  | .getSettlementMemo => some (FixedBytes.zero 512)
  | .fault => none

end Host

end Auntie.Source
