import Auntie.Bytes
import Auntie.Interaction.Session

/-!
# Channels of `common/trusted/channel.c`

Embeds `channel.c:6-206` as programs over `struct channel`. What leaves the
enclave or comes from outside `src/` is a call: the three OCALLs of the
connection, the C allocator and the SGX AES-GCM functions. Their answers are
arbitrary within their types; an OCALL whose status is not `SGX_SUCCESS` aborts
the enclave, which is the call that is never answered.

`[out, size=size]` makes the edge routine overwrite the whole buffer whatever the
OCALL returns, so an answer of `ocall_ingress` carries `size` bytes next to its
return value. A successful allocation is no larger than the heap
(`HeapMaxSize`, the larger of the two enclaves). Bytes read past the end of an
allocation are those `readPast` answers; bytes written past it are not tracked.
Printed text is omitted.
-/

namespace Auntie.Source

theorem int32_neg {ret : Int32} : ret < 0 ↔ ret.toInt < 0 := Int32.lt_iff_toInt_lt

theorem int32_zero {ret : Int32} : ret = 0 ↔ ret.toInt = 0 := Int32.toInt_inj.symm

def eio : Int32 := 5
def eagain : Int32 := 11
def enomem : Int32 := 12
def efault : Int32 := 14
def ebusy : Int32 := 16
def einval : Int32 := 22
def econnreset : Int32 := 104

theorem eio_error : -eio ≠ 0 := by decide

theorem enomem_error : -enomem ≠ 0 := by decide

theorem efault_error : -efault ≠ 0 := by decide

theorem ebusy_error : -ebusy ≠ 0 := by decide

theorem einval_error : -einval ≠ 0 := by decide

abbrev SessionKey := FixedBytes 16

namespace Channels
open Auntie.Interaction

/-- `HeapMaxSize` of `operator/trusted/config.xml`. -/
abbrev heapMaxSize : Nat := 0x10000000

/-- What `malloc` returns: the address and the uninitialised contents. -/
structure Allocation (size : Nat) where
  address : Nat
  contents : FixedBytes size
  fits : size ≤ heapMaxSize

/-- The buffer handed to `ocall_ingress`. -/
inductive Target where
  | caller
  | envelope
  | record (offset : Nat)
  deriving DecidableEq

abbrev Nonce := FixedBytes 12
abbrev Tag := FixedBytes 16

/-- The calls of a channel. A status is the answer `true` for `SGX_SUCCESS`; decryption
also answers with what its destination then holds. -/
inductive Call : Type → Type where
  | ocallIngress (connection : Nat) (target : Target) (size : Nat) :
      Call (Int32 × FixedBytes size)
  | ocallEgress (connection : Nat) (bytes : Bytes) : Call Int32
  | ocallDropConnection (connection : Nat) : Call Int32
  | malloc (size : Nat) : Call (Option (Allocation size))
  | free (address : Nat) : Call Unit
  | readPast (address : Nat) (count : Nat) : Call (FixedBytes count)
  | sgxAesGcmDecrypt (key : SessionKey) (source : Bytes) (nonce : Nonce) (aad : Bytes)
      (tag : Tag) : Call (Bool × FixedBytes source.length)
  | sgxAesGcmEncrypt (key : SessionKey) (source : Bytes) (nonce : Nonce) (aad : Bytes) :
      Call (Option (FixedBytes source.length × Tag))

/-- The leading 32 bytes of a record. -/
structure Envelope where
  length : Nat
  nonce : Nonce
  tag : Tag

abbrev sizeofEnvelope : Nat := 32

def Envelope.parse (bytes : FixedBytes sizeofEnvelope) : Envelope where
  length := leValue (bytes.slice 0 4 (by decide)).val
  nonce := bytes.slice 4 12 (by decide)
  tag := bytes.slice 16 16 (by decide)

def Envelope.encode (envelope : Envelope) : Bytes :=
  leBytes 4 envelope.length ++ envelope.nonce.val ++ envelope.tag.val

theorem Envelope.encode_length (envelope : Envelope) :
    envelope.encode.length = sizeofEnvelope := by
  simp [Envelope.encode, envelope.nonce.property, envelope.tag.property]

/-- `struct channel`. `record` is the content of the allocation `buffer` points to,
`message` the offset of the unread bytes in it, or `NULL`. -/
structure Channel where
  address : Nat
  sessionKey : SessionKey
  connection : Nat
  encrypted : Bool
  id : Nat
  ingressSequence : Nat
  egressSequence : Nat
  messageLength : Nat
  message : Option Nat
  buffer : Nat
  record : Bytes

abbrev sizeofChannel : Nat := 88

theorem sizeofChannel_le : sizeofChannel ≤ heapMaxSize := by decide

/-- The value `channel_ingress` returns and the bytes it stores in the caller's buffer. -/
structure Received where
  ret : Int32
  bytes : Bytes
  deriving DecidableEq

abbrev Code := Program Call Channel

section Ingress

def plaintextIngress (size : Nat) : Code Received := do
  let channel ← get
  let (ret, bytes) ← issue (.ocallIngress channel.connection .caller size)
  return ⟨ret, bytes.val⟩

/-- `count` bytes from `channel->message` on. -/
def readMessage (offset count : Nat) : Code Bytes := do
  let channel ← get
  let inside := (channel.record.drop offset).take count
  if inside.length < count then
    let past ← issue (.readPast (channel.buffer + channel.record.length)
      (count - inside.length))
    return inside ++ past.val
  else
    return inside

/-- The `while` loop that reads the body of a record: an error code, or none when the
body is complete. `message_length + ret` stays below `2^32`, as the body fits the heap. -/
def fillRecord {length : Nat} (body : Allocation length) (messageLength : Nat) :
    Code (Option Int32) :=
  if messageLength < length then do
    let channel ← get
    let (ret, bytes) ← issue
      (.ocallIngress channel.connection (.record messageLength) (length - messageLength))
    set { channel with record := channel.record.take messageLength ++ bytes.val }
    if _hneg : ret < 0 then
      return some ret
    else if _hzero : ret = 0 then
      return some (-econnreset)
    else
      modify fun channel => { channel with messageLength := messageLength + ret.toInt.toNat }
      fillRecord body (messageLength + ret.toInt.toNat)
  else
    return none
termination_by length - messageLength
decreasing_by
  rw [int32_neg] at _hneg
  rw [int32_zero] at _hzero
  omega

/-- Decrypts the complete body in place and advances the sequence number. -/
def decryptRecord (envelope : Envelope) : Code (Option Int32) := do
  let channel ← get
  let source ← readMessage 0 channel.messageLength
  let (success, plaintext) ← issue (.sgxAesGcmDecrypt channel.sessionKey source
    envelope.nonce (leBytes 8 channel.ingressSequence) envelope.tag)
  modify fun channel => { channel with record := plaintext.val.take channel.record.length }
  if !success then
    return some (-efault)
  modify fun channel => { channel with
    ingressSequence := (channel.ingressSequence + envelope.length) % 2 ^ 64 }
  return none

/-- Reads and decrypts the next record: an error code, or none. -/
def nextRecord : Code (Option Int32) := do
  let channel ← get
  let (ret, header) ← issue
    (.ocallIngress channel.connection .envelope sizeofEnvelope)
  if ret ≠ 32 then
    return some (if ret < 0 then ret else if ret ≠ 0 then -eio else -econnreset)
  let envelope := Envelope.parse header
  let some body ← issue (.malloc envelope.length) |
    return some (-enomem)
  modify fun channel => { channel with
    buffer := body.address, record := body.contents.val, message := some 0, messageLength := 0 }
  if let some error ← fillRecord body 0 then
    return some error
  decryptRecord envelope

/-- Copies from the present record. -/
def copyMessage (offset size : Nat) : Code Received := do
  let channel ← get
  let bytesMoved := if channel.messageLength > size then size else channel.messageLength
  let bytes ← readMessage offset bytesMoved
  modify fun channel => { channel with
    message := some (offset + bytesMoved), messageLength := channel.messageLength - bytesMoved }
  let channel ← get
  if channel.messageLength = 0 then
    let _ ← issue (.free channel.buffer)
    set { channel with message := none }
  return ⟨Int32.ofNat bytesMoved, bytes⟩

def encryptedIngress (size : Nat) : Code Received := do
  let channel ← get
  match channel.message with
  | some offset => copyMessage offset size
  | none =>
    match ← nextRecord with
    | some error => return ⟨error, []⟩
    | none => copyMessage 0 size

def channelIngress (size : Nat) : Code Received := do
  let channel ← get
  if channel.encrypted then encryptedIngress size else plaintextIngress size

end Ingress

section Egress

def plaintextEgress (bytes : Bytes) : Code Int32 := do
  let channel ← get
  issue (.ocallEgress channel.connection bytes)

/-- The nonce is whatever the allocation holds where `envelope->nonce` lies. -/
def encryptedEgress (bytes : Bytes) : Code Int32 := do
  let channel ← get
  let some xmitBuffer ← issue (.malloc (sizeofEnvelope + bytes.length)) |
    return -enomem
  let nonce := xmitBuffer.contents.slice 4 12 (by unfold sizeofEnvelope; omega)
  let some (ciphertext, tag) ← issue (.sgxAesGcmEncrypt channel.sessionKey bytes
      nonce (leBytes 8 channel.egressSequence)) | do
    let _ ← issue (.free xmitBuffer.address)
    return -efault
  let envelope : Envelope := ⟨bytes.length % 2 ^ 32, nonce, tag⟩
  let ret ← issue
    (.ocallEgress channel.connection (envelope.encode ++ ciphertext.val))
  let _ ← issue (.free xmitBuffer.address)
  if ret.toInt ≠ sizeofEnvelope + bytes.length then
    return -eio
  modify fun channel => { channel with
    egressSequence := (channel.egressSequence + bytes.length) % 2 ^ 64 }
  return Int32.ofNat bytes.length

def channelEgress (bytes : Bytes) : Code Int32 := do
  let channel ← get
  if channel.encrypted then encryptedEgress bytes else plaintextEgress bytes

end Egress

/-- `channel_create`: the session key and the buffer pointer keep what the allocation held. -/
def channelCreate (struct : Allocation sizeofChannel) (connection : Nat) : Channel where
  address := struct.address
  sessionKey := struct.contents.slice 0 16 (by decide)
  connection := connection
  encrypted := false
  id := 2 ^ 32 - 1
  ingressSequence := 0
  egressSequence := 0
  messageLength := 0
  message := none
  buffer := leValue (struct.contents.slice 80 8 (by decide)).val
  record := []

def channelEncrypt (channel : Channel) (sessionKey : SessionKey) : Channel :=
  { channel with sessionKey := sessionKey, encrypted := true }

def channelAssignId (channel : Channel) (id : Nat) : Channel := { channel with id := id }

def channelTeardown : Code Unit := do
  let channel ← get
  let _ ← issue (.ocallDropConnection channel.connection)
  if let some offset := channel.message then
    issue (.free (channel.buffer + offset))
  issue (.free channel.address)

/-- The calls made on an open channel. -/
inductive Operation where
  | ingress (size : Nat)
  | egress (bytes : Bytes)

def handle : Operation → Code Received
  | .ingress size => channelIngress size
  | .egress bytes => do return ⟨← channelEgress bytes, []⟩

def openChannel : Component Call Channel := ⟨Operation, Received, handle⟩

end Channels

end Auntie.Source
