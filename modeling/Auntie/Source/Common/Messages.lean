import Auntie.Source.Common.Channel
import Auntie.Source.Common.Enclave

/-!
# Messages of `common/trusted/messages.c`

Embeds `messages.c:45-97` over a channel. A message is its header, the type and the size of
the payload, and the payload; `auntie_msg_send` passes both to the channel in one piece. Its
size argument adds `sizeof` of the pointer, which on this target is that of the header.

`auntie_msg_receive` reads the header, then the payload until it is complete. A channel that
delivers nothing does not end that loop; the model gives up after `fuel` rounds, which is the
result `unfinished`. Printed text is omitted.
-/

namespace Auntie.Source

/-- The header and the payload as they lie in memory. -/
def Message.encode (msg : Message) : Bytes :=
  leBytes 4 msg.msgType ++ leBytes 4 msg.payload.length ++ msg.payload

namespace Channels
open Auntie.Interaction

/-- `struct auntie_msg_hdr`. -/
structure MessageHeader where
  msgType : Nat
  payloadSize : Nat
  deriving DecidableEq

def MessageHeader.parse (bytes : FixedBytes sizeofMessageHeader) : MessageHeader where
  msgType := leValue (bytes.slice 0 4 (by decide)).val
  payloadSize := leValue (bytes.slice 4 4 (by decide)).val

/-- What `auntie_msg_receive` returns; `failed` is `NULL`. -/
inductive Reception where
  | message (msg : Message)
  | failed
  | unfinished
  deriving DecidableEq

def auntieMsgSend (msg : Message) : Code Int32 := do
  let ret ← channelEgress msg.encode
  return if ret < 0 then ret else 0

/-- A buffer after bytes have been stored at an offset. -/
def store (buffer : Bytes) (offset : Nat) (bytes : Bytes) : Bytes :=
  buffer.take offset ++ bytes ++ buffer.drop (offset + bytes.length)

/-- The `while` loop over the payload. `payload` is the content of the allocation behind the
header. -/
def receivePayload (header : MessageHeader) (address : Nat) (fuel bytesReceived : Nat)
    (payload : Bytes) : Code Reception :=
  if bytesReceived < header.payloadSize then
    match fuel with
    | 0 => return .unfinished
    | fuel + 1 => do
      let received ← channelIngress (header.payloadSize - bytesReceived)
      if received.ret < 0 then
        let _ ← issue (.free address)
        return .failed
      receivePayload header address fuel (bytesReceived + received.ret.toInt.toNat)
        (store payload bytesReceived received.bytes)
  else
    return .message ⟨header.msgType, payload⟩

/-- The header is parsed only when the call returned its size, and has then stored as many
bytes. -/
def auntieMsgReceive (fuel : Nat) : Code Reception := do
  let received ← channelIngress sizeofMessageHeader
  if received.ret ≠ 8 then
    return .failed
  let header := MessageHeader.parse (FixedBytes.fit sizeofMessageHeader received.bytes)
  if header.msgType ≥ msgTypeCount then
    return .failed
  let some msg ← issue (.malloc (sizeofMessageHeader + header.payloadSize)) |
    return .failed
  receivePayload header msg.address fuel 0 (msg.contents.val.drop sizeofMessageHeader)

/-- The calls made on the message layer of an open channel. -/
inductive MessageOperation where
  | send (msg : Message)
  | receive (fuel : Nat)
  deriving DecidableEq

inductive MessageOutcome where
  | sent (ret : Int32)
  | received (reception : Reception)
  deriving DecidableEq

def handleMessage : MessageOperation → Code MessageOutcome
  | .send msg => return .sent (← auntieMsgSend msg)
  | .receive fuel => return .received (← auntieMsgReceive fuel)

def messageChannel : Component Call Channel := ⟨MessageOperation, MessageOutcome, handleMessage⟩

end Channels

end Auntie.Source
