import Auntie.Guarantees.StreamIntegrity
import Auntie.Interaction.Contract
import Auntie.Source.Common.Messages

/-!
# The message layer delivers what was sent

A message leaves in one record. The receiver takes the record apart again: the header comes
out of it first, the payload after it, and what has been read of the record stays in the
channel between the two. However the network splits the bodies of the records, each receive
returns the message of the send that matches it, with nothing of the record left and the
counters of the two ends in step.
-/

namespace Auntie.Guarantees.MessageRoundTrip
open Auntie.Source Auntie.Source.Channels Auntie.Interaction
open StreamIntegrity (SealedRecord sealedIn freshChannel)

section Sender

/-- A record on the wire. -/
def wireOf (record : SealedRecord) : Bytes :=
  Envelope.encode ⟨record.plaintext.length % 2 ^ 32, record.nonce, record.tag⟩ ++ record.ciphertext

def transmitted {β : Type} : Call β → Bytes
  | .ocallEgress _ bytes => bytes
  | _ => []

/-- The bytes handed to the network. -/
def sentBytes (events : List (Event Call)) : Bytes :=
  events.flatMap fun
    | .answered c _ => transmitted c
    | .issued _ => []

/-- The records sealed under the key. -/
def sealedBy (key : SessionKey) (events : List (Event Call)) : List SealedRecord :=
  events.flatMap fun
    | .answered c answer => (sealedIn key c answer).toList
    | .issued _ => []

/-- Allocations and encryption succeed, and the network takes everything. -/
def Serves {β : Type} : Call β → β → Prop
  | .malloc _, allocation => allocation.isSome
  | .sgxAesGcmEncrypt _ _ _ _, record => record.isSome
  | .ocallEgress _ bytes, ret => ret.toInt = bytes.length
  | _, _ => True

instance decidableServes : ∀ {β : Type} (c : Call β) (answer : β), Decidable (Serves c answer)
  | _, .malloc _, allocation => inferInstanceAs (Decidable (allocation.isSome = true))
  | _, .sgxAesGcmEncrypt _ _ _ _, record => inferInstanceAs (Decidable (record.isSome = true))
  | _, .ocallEgress _ bytes, ret => inferInstanceAs (Decidable (ret.toInt = bytes.length))
  | _, .ocallIngress _ _ _, _ | _, .ocallDropConnection _, _ | _, .free _, _
  | _, .readPast _ _, _ | _, .sgxAesGcmDecrypt _ _ _ _ _, _ => inferInstanceAs (Decidable True)

structure Sent where
  bytes : Bytes
  records : List SealedRecord

variable {key : SessionKey}

def sending (key : SessionKey) : Contract Call Channel Sent where
  answered m c answer := ⟨m.bytes ++ transmitted c, m.records ++ (sealedIn key c answer).toList⟩
  assumes _ c answer := Serves c answer

theorem foldl_sending (m : Sent) (events : List (Event Call)) :
    events.foldl (sending key).observe m =
      ⟨m.bytes ++ sentBytes events, m.records ++ sealedBy key events⟩ := by
  induction events generalizing m with
  | nil => simp [sentBytes, sealedBy]
  | cons event events ih =>
    rw [List.foldl_cons, ih]
    cases event with
    | issued c => rfl
    | answered c answer =>
      simp [Monitor.observe, sending, sentBytes, sealedBy, List.append_assoc]

/-- The type is known, and the record that carries the message has an `int` for its size. -/
structure Sendable (msg : Message) : Prop where
  known : msg.msgType < msgTypeCount
  fits : sizeofEnvelope + (sizeofMessageHeader + msg.payload.length) < 2 ^ 31

/-- The record holds the message, for the place in the stream its counter says. -/
structure Carries (record : SealedRecord) (msg : Message) (sequence : Nat) : Prop where
  plaintext : record.plaintext = msg.encode
  aad : record.aad = leBytes 8 sequence
  ciphertext : record.ciphertext.length = record.plaintext.length

theorem encode_length (msg : Message) :
    msg.encode.length = sizeofMessageHeader + msg.payload.length := by
  simp [Message.encode, sizeofMessageHeader]
  omega

/-- A send that is served seals the message in one record and hands that to the network. -/
theorem auntieMsgSend_spec {channel : Channel} {msg : Message}
    (hencrypted : channel.encrypted = true) (hkey : channel.sessionKey = key)
    (hmsg : Sendable msg) :
    (sending key).wp (fun ret last m => ret = 0 ∧
        last = { channel with
          egressSequence := (channel.egressSequence + msg.encode.length) % 2 ^ 64 } ∧
        ∃ record, Carries record msg channel.egressSequence ∧ m = ⟨wireOf record, [record]⟩)
      (auntieMsgSend msg) channel ⟨[], []⟩ := by
  have hlength := encode_length msg
  have hfits := hmsg.fits
  unfold sizeofEnvelope at hfits
  have hpositive : ¬ Int32.ofNat msg.encode.length < 0 := by
    rw [int32_neg, Int32.toInt_ofNat_of_lt (by omega)]
    omega
  unfold auntieMsgSend channelEgress encryptedEgress
  simp only [Contract.wp_bind, Contract.wp_get, if_pos hencrypted, Contract.wp_issue]
  refine ⟨trivial, fun xmitBuffer hserved => ?_⟩
  cases xmitBuffer with
  | none => cases hserved
  | some xmitBuffer =>
    simp only [Contract.wp_bind, Contract.wp_issue]
    refine ⟨trivial, fun sealed hserved => ?_⟩
    cases sealed with
    | none => cases hserved
    | some sealed =>
      obtain ⟨ciphertext, tag⟩ := sealed
      simp only [Contract.wp_bind, Contract.wp_issue, Contract.wp_ite, Contract.wp_pure,
        Contract.wp_modify]
      refine ⟨trivial, fun ret hserved => ⟨trivial, fun _ _ => ⟨fun hpartial => ?_, fun _ => ?_⟩⟩⟩
      · have hall : ret.toInt = sizeofEnvelope + msg.encode.length := by
          change ret.toInt = List.length _ at hserved
          rw [hserved, List.length_append, Envelope.encode_length, ciphertext.property]
          rfl
        exact absurd hall hpartial
      · rw [if_neg hpositive]
        let nonce : Nonce := xmitBuffer.contents.slice 4 12 (by unfold sizeofEnvelope; omega)
        let record : SealedRecord :=
          ⟨msg.encode, nonce, leBytes 8 channel.egressSequence, ciphertext.val, tag⟩
        refine ⟨rfl, trivial, record, ⟨rfl, rfl, ciphertext.property⟩, ?_⟩
        simp [sending, transmitted, sealedIn, hkey, wireOf, record, nonce]

end Sender

section Receiver

/-- What the network has yet to deliver. -/
def unread (stream : Bytes) {β : Type} : Call β → β → Bytes
  | .ocallIngress _ _ _, (ret, _) => stream.drop ret.toInt.toNat
  | _, _ => stream

/-- The next bytes of the stream arrive, at least one of them, and an envelope in one piece. -/
def Delivers (stream : Bytes) {β : Type} : Call β → β → Prop
  | .ocallIngress _ target size, (ret, bytes) => 0 < ret.toInt ∧ ret.toInt ≤ size ∧
      bytes.val.take ret.toInt.toNat <+: stream ∧ (target = .envelope → ret.toInt = size)
  | _, _ => True

/-- What was sealed under the key opens under it. -/
def Opens (key : SessionKey) (sealed : List SealedRecord) {β : Type} : Call β → β → Prop
  | .sgxAesGcmDecrypt usedKey source nonce aad tag, (success, plaintext) => usedKey = key →
      ∀ record ∈ sealed, record.nonce = nonce → record.aad = aad → record.ciphertext = source →
        record.tag = tag → success = true ∧ plaintext.val = record.plaintext
  | _, _ => True

instance decidableDelivers (stream : Bytes) :
    ∀ {β : Type} (c : Call β) (answer : β), Decidable (Delivers stream c answer)
  | _, .ocallIngress _ target size, (ret, bytes) =>
    inferInstanceAs (Decidable (0 < ret.toInt ∧ ret.toInt ≤ size ∧
      bytes.val.take ret.toInt.toNat <+: stream ∧ (target = .envelope → ret.toInt = size)))
  | _, .ocallEgress _ _, _ | _, .ocallDropConnection _, _ | _, .malloc _, _ | _, .free _, _
  | _, .readPast _ _, _ | _, .sgxAesGcmDecrypt _ _ _ _ _, _ | _, .sgxAesGcmEncrypt _ _ _ _, _ =>
    inferInstanceAs (Decidable True)

instance decidableOpens (key : SessionKey) (sealed : List SealedRecord) :
    ∀ {β : Type} (c : Call β) (answer : β), Decidable (Opens key sealed c answer)
  | _, .sgxAesGcmDecrypt usedKey source nonce aad tag, (success, plaintext) =>
    inferInstanceAs (Decidable (usedKey = key →
      ∀ record ∈ sealed, record.nonce = nonce → record.aad = aad → record.ciphertext = source →
        record.tag = tag → success = true ∧ plaintext.val = record.plaintext))
  | _, .ocallIngress _ _ _, _ | _, .ocallEgress _ _, _ | _, .ocallDropConnection _, _
  | _, .malloc _, _ | _, .free _, _ | _, .readPast _ _, _ | _, .sgxAesGcmEncrypt _ _ _ _, _ =>
    inferInstanceAs (Decidable True)

/-- The network has what is asked for. -/
def Answerable (stream : Bytes) {β : Type} : Call β → Prop
  | .ocallIngress _ _ size => 0 < size ∧ size ≤ stream.length
  | _ => True

/-- The network delivers a stream, allocations succeed and the cipher opens what was sealed. -/
def delivery (key : SessionKey) (sealed : List SealedRecord) : Contract Call Channel Bytes where
  answered stream c answer := unread stream c answer
  safe _ stream c := Answerable stream c
  assumes stream c answer := Delivers stream c answer ∧ Serves c answer ∧ Opens key sealed c answer

instance decidableDelivery (key : SessionKey) (sealed : List SealedRecord) {β : Type}
    (stream : Bytes) (c : Call β) (answer : β) :
    Decidable ((delivery key sealed).assumes stream c answer) :=
  inferInstanceAs (Decidable (Delivers stream c answer ∧ Serves c answer ∧ Opens key sealed c answer))

variable {key : SessionKey} {sealed : List SealedRecord} {channel : Channel}

theorem readMessage_spec {offset count : Nat} {post : Bytes → Channel → Bytes → Prop}
    {stream : Bytes} (hinside : offset + count ≤ channel.record.length)
    (hpost : post ((channel.record.drop offset).take count) channel stream) :
    (delivery key sealed).wp post (readMessage offset count) channel stream := by
  have hlength : ¬ ((channel.record.drop offset).take count).length < count := by
    rw [List.length_take, List.length_drop]
    omega
  unfold readMessage
  simp only [Contract.wp_bind, Contract.wp_get, if_neg hlength, Contract.wp_pure]
  exact hpost

/-- The body is complete when the loop ends, in however many pieces it came. -/
theorem fillRecord_spec {length : Nat} (body : Allocation length) (messageLength : Nat)
    {text rest : Bytes} (htext : text.length = length) (hinside : messageLength ≤ length)
    (hlength : channel.messageLength = messageLength) (hrecord : channel.record.length = length)
    (hread : channel.record.take messageLength = text.take messageLength) :
    (delivery key sealed).wp (fun error last stream => error = none ∧
        last = { channel with record := text, messageLength := length } ∧ stream = rest)
      (fillRecord body messageLength) channel (text.drop messageLength ++ rest) := by
  induction messageLength using @fillRecord.induct length generalizing channel with
  | case1 messageLength hless ih =>
    rw [fillRecord, if_pos hless]
    simp only [Contract.wp_bind, Contract.wp_get, Contract.wp_issue, Contract.wp_set,
      Contract.wp_dite, Contract.wp_pure, Contract.wp_modify]
    have hleft : (text.drop messageLength).length = length - messageLength := by
      rw [List.length_drop, htext]
    refine ⟨⟨by omega, by rw [List.length_append]; omega⟩, ?_⟩
    rintro ⟨ret, bytes⟩ ⟨⟨hpositive, hsize, hprefix, -⟩, -⟩
    change bytes.val.take ret.toInt.toNat <+: text.drop messageLength ++ rest at hprefix
    dsimp only at hpositive hsize ⊢
    generalize hcount : ret.toInt.toNat = count at hprefix
    have hfits : count ≤ length - messageLength := by omega
    refine ⟨fun hneg => ?_, fun hneg => ⟨fun hzero => ?_, fun hzero => ?_⟩⟩
    · rw [int32_neg] at hneg
      omega
    · rw [int32_zero] at hzero
      omega
    · have hfilled : (channel.record.take messageLength ++ bytes.val).length = length := by
        rw [List.length_append, List.length_take, bytes.property]
        omega
      have hbytes : bytes.val.take count = (text.drop messageLength).take count := by
        have htaken := List.prefix_iff_eq_take.mp hprefix
        rw [List.length_take, bytes.property, Nat.min_eq_left hfits,
          List.take_append_of_le_length (by omega)] at htaken
        exact htaken
      have hsofar : (channel.record.take messageLength ++ bytes.val).take (messageLength + count) =
          text.take (messageLength + count) := by
        have hstart : (text.take messageLength).length = messageLength := by
          rw [List.length_take]
          omega
        rw [hread, List.take_append, hstart, List.take_of_length_le (by omega),
          Nat.add_sub_cancel_left, hbytes, List.take_add]
      have hstream : (text.drop messageLength ++ rest).drop count =
          text.drop (messageLength + count) ++ rest := by
        rw [List.drop_append_of_le_length (by omega), List.drop_drop]
      have hnext := @ih ret hneg hzero { channel with
        record := channel.record.take messageLength ++ bytes.val
        messageLength := messageLength + ret.toInt.toNat }
      simp only [delivery, unread, hcount, hstream] at hnext ⊢
      exact hnext (by omega) trivial hfilled hsofar
  | case2 messageLength hdone =>
    have hall : messageLength = length := by omega
    rw [fillRecord, if_neg hdone, Contract.wp_pure]
    refine ⟨rfl, ?_, by simp [hall, ← htext]⟩
    rw [hall, List.take_of_length_le hrecord.le, List.take_of_length_le htext.le] at hread
    rw [← hread, ← hall, ← hlength]

/-- A record that the sender sealed with the counter of the receiver opens. -/
theorem decryptRecord_spec {record : SealedRecord} {envelope : Envelope} {stream : Bytes}
    (hsealed : record ∈ sealed) (hlength : record.ciphertext.length = record.plaintext.length)
    (henvelope : envelope = ⟨record.plaintext.length, record.nonce, record.tag⟩)
    (hkey : channel.sessionKey = key) (haad : record.aad = leBytes 8 channel.ingressSequence)
    (hrecord : channel.record = record.ciphertext)
    (hmessage : channel.messageLength = record.plaintext.length) :
    (delivery key sealed).wp (fun error last rest => error = none ∧
        last = { channel with
          record := record.plaintext
          ingressSequence := (channel.ingressSequence + record.plaintext.length) % 2 ^ 64 } ∧
        rest = stream)
      (decryptRecord envelope) channel stream := by
  unfold decryptRecord
  simp only [Contract.wp_bind, Contract.wp_get]
  refine readMessage_spec (by rw [hrecord]; omega) ?_
  have hsource : (channel.record.drop 0).take channel.messageLength = record.ciphertext := by
    rw [List.drop_zero, hmessage, ← hlength, hrecord, List.take_length]
  rw [hsource]
  simp only [Contract.wp_issue, Contract.wp_bind, Contract.wp_modify, Contract.wp_ite,
    Contract.wp_pure]
  refine ⟨trivial, ?_⟩
  rintro ⟨success, plaintext⟩ ⟨-, -, hopens⟩
  have hopened : success = true ∧ plaintext.val = record.plaintext := by
    refine hopens hkey record hsealed ?_ haad rfl ?_
    · rw [henvelope]
    · rw [henvelope]
  obtain ⟨rfl, hplaintext⟩ := hopened
  have hwhole : plaintext.val.take channel.record.length = record.plaintext := by
    rw [hplaintext, hrecord, hlength, List.take_length]
  refine ⟨(by simp), fun _ => ⟨trivial, ?_, rfl⟩⟩
  rw [hwhole, henvelope]

theorem parse_encode (envelope : Envelope) (h : envelope.length < 2 ^ 32) :
    Envelope.parse ⟨envelope.encode, Envelope.encode_length envelope⟩ = envelope := by
  obtain ⟨length, ⟨nonce, hnonce⟩, ⟨tag, htag⟩⟩ := envelope
  have hlength : leValue (leBytes 4 length) = length := by
    rw [leValue_leBytes]
    exact Nat.mod_eq_of_lt h
  have hfirst : (((leBytes 4 length ++ nonce ++ tag).drop 0).take 4) = leBytes 4 length := by
    rw [List.drop_zero, List.append_assoc]
    exact List.take_left' (leBytes_length 4 length)
  have hsecond : (((leBytes 4 length ++ nonce ++ tag).drop 4).take 12) = nonce := by
    rw [List.append_assoc, List.drop_left' (leBytes_length 4 length)]
    exact List.take_left' hnonce
  have hthird : (((leBytes 4 length ++ nonce ++ tag).drop 16).take 16) = tag := by
    rw [List.drop_left' (by simp [hnonce]), List.take_of_length_le htag.le]
  simp only [Envelope.parse, FixedBytes.slice, Envelope.encode, hfirst, hsecond, hthird, hlength]

/-- The next record of the stream is read and opened. -/
theorem nextRecord_spec {record : SealedRecord} {rest : Bytes}
    (hsealed : record ∈ sealed) (hlength : record.ciphertext.length = record.plaintext.length)
    (hfits : record.plaintext.length < 2 ^ 32) (hkey : channel.sessionKey = key)
    (haad : record.aad = leBytes 8 channel.ingressSequence) :
    (delivery key sealed).wp (fun error last stream => error = none ∧ (∃ buffer, last =
        { channel with
          record := record.plaintext
          buffer := buffer
          message := some 0
          messageLength := record.plaintext.length
          ingressSequence := (channel.ingressSequence + record.plaintext.length) % 2 ^ 64 }) ∧
        stream = rest)
      nextRecord channel (wireOf record ++ rest) := by
  generalize henvelope : (⟨record.plaintext.length, record.nonce, record.tag⟩ : Envelope) = envelope
  have hwire : wireOf record ++ rest = envelope.encode ++ (record.ciphertext ++ rest) := by
    rw [wireOf, Nat.mod_eq_of_lt hfits, henvelope, List.append_assoc]
  rw [hwire]
  unfold nextRecord
  simp only [Contract.wp_bind, Contract.wp_get, Contract.wp_issue]
  refine ⟨⟨by decide, by simp [Envelope.encode_length, sizeofEnvelope]⟩, ?_⟩
  rintro ⟨ret, header⟩ ⟨⟨-, -, hprefix, hwhole⟩, -⟩
  change header.val.take ret.toInt.toNat <+: envelope.encode ++ (record.ciphertext ++ rest) at hprefix
  have hret : ret.toInt = 32 := hwhole rfl
  have hheader : header = ⟨envelope.encode, Envelope.encode_length envelope⟩ := by
    rw [hret, show (32 : Int).toNat = 32 from rfl, List.take_of_length_le header.property.le,
      List.prefix_iff_eq_take, header.property] at hprefix
    exact Subtype.ext ( hprefix.trans (List.take_left' (Envelope.encode_length envelope)))
  have hparse : Envelope.parse header = envelope := by
    rw [hheader]
    exact parse_encode envelope (by rw [← henvelope]; exact hfits)
  have hsize : ret = 32 := Int32.toInt_inj.mp (hret.trans (by decide))
  have hstream : (envelope.encode ++ (record.ciphertext ++ rest)).drop ret.toInt.toNat =
      record.ciphertext ++ rest := by
    rw [hret]
    exact List.drop_left' (Envelope.encode_length envelope)
  simp only [Contract.wp_ite, Contract.wp_bind, Contract.wp_issue, Contract.wp_pure]
  generalize Envelope.parse header = parsed at hparse
  subst hparse
  refine ⟨fun hshort => absurd hsize hshort, fun _ => ⟨trivial, ?_⟩⟩
  intro body hserved
  cases body with
  | none => cases hserved.2.1
  | some body =>
    have hbody : record.ciphertext.length = parsed.length := by rw [hlength, ← henvelope]
    simp only [Contract.wp_bind, Contract.wp_modify]
    change (delivery key sealed).wp _ _ _
      ((parsed.encode ++ (record.ciphertext ++ rest)).drop ret.toInt.toNat)
    rw [hstream]
    refine Contract.wp_mono ?_ (fillRecord_spec body 0 hbody (Nat.zero_le _) rfl
      body.contents.property rfl)
    rintro error last stream ⟨rfl, rfl, rfl⟩
    refine Contract.wp_mono ?_ (decryptRecord_spec hsealed hlength henvelope.symm hkey haad rfl
      (hbody.symm.trans hlength))
    rintro error last stream' ⟨rfl, rfl, rfl⟩
    refine ⟨rfl, ⟨body.address, ?_⟩, rfl⟩
    simp only [← hbody, hlength]

/-- The bytes asked for, or all that is left of the record. -/
theorem copyMessage_spec {offset size : Nat} {stream : Bytes}
    (hinside : offset + channel.messageLength ≤ channel.record.length) :
    (delivery key sealed).wp (fun received last rest =>
        received = ⟨Int32.ofNat (min size channel.messageLength),
          (channel.record.drop offset).take (min size channel.messageLength)⟩ ∧
        last = { channel with
          message := if channel.messageLength ≤ size then none else some (offset + size)
          messageLength := channel.messageLength - size } ∧ rest = stream)
      (copyMessage offset size) channel stream := by
  have hmoved : (if channel.messageLength > size then size else channel.messageLength) =
      min size channel.messageLength := by
    split
    · omega
    · omega
  unfold copyMessage
  simp only [Contract.wp_bind, Contract.wp_get, hmoved]
  refine readMessage_spec (by omega) ?_
  simp only [Contract.wp_modify, Contract.wp_bind, Contract.wp_ite, Contract.wp_issue,
    Contract.wp_set, Contract.wp_pure]
  constructor
  · intro hdone
    have hall : channel.messageLength ≤ size := by omega
    refine ⟨trivial, fun _ _ => ⟨trivial, ?_, rfl⟩⟩
    rw [if_pos hall, Nat.sub_eq_zero_of_le hall]
    simp only [hdone]
  · intro hmore
    have hpart : ¬ channel.messageLength ≤ size := by omega
    refine ⟨trivial, ?_, trivial⟩
    rw [if_neg hpart, Nat.min_eq_left (by omega)]

/-- A read at a record boundary takes the next record of the stream. -/
theorem channelIngress_fresh {record : SealedRecord} {size : Nat} {rest : Bytes}
    (hencrypted : channel.encrypted = true) (hmessage : channel.message = none)
    (hsealed : record ∈ sealed) (hlength : record.ciphertext.length = record.plaintext.length)
    (hfits : record.plaintext.length < 2 ^ 32) (hkey : channel.sessionKey = key)
    (haad : record.aad = leBytes 8 channel.ingressSequence) :
    (delivery key sealed).wp (fun received last stream =>
        received = ⟨Int32.ofNat (min size record.plaintext.length),
          record.plaintext.take (min size record.plaintext.length)⟩ ∧
        (∃ buffer, last = { channel with
          record := record.plaintext
          buffer := buffer
          message := if record.plaintext.length ≤ size then none else some size
          messageLength := record.plaintext.length - size
          ingressSequence := (channel.ingressSequence + record.plaintext.length) % 2 ^ 64 }) ∧
        stream = rest)
      (channelIngress size) channel (wireOf record ++ rest) := by
  unfold channelIngress encryptedIngress
  simp only [Contract.wp_bind, Contract.wp_get, if_pos hencrypted, hmessage]
  refine Contract.wp_mono ?_ (nextRecord_spec hsealed hlength hfits hkey haad)
  rintro error last stream ⟨rfl, ⟨buffer, rfl⟩, rfl⟩
  refine Contract.wp_mono ?_ (copyMessage_spec (by simp))
  rintro received last stream' ⟨rfl, rfl, rfl⟩
  refine ⟨rfl, ⟨buffer, ?_⟩, rfl⟩
  simp only [Nat.zero_add]

/-- A read inside a record takes from what is left of it. -/
theorem channelIngress_inside {offset size : Nat} {stream : Bytes}
    (hencrypted : channel.encrypted = true) (hmessage : channel.message = some offset)
    (hinside : offset + channel.messageLength ≤ channel.record.length) :
    (delivery key sealed).wp (fun received last rest =>
        received = ⟨Int32.ofNat (min size channel.messageLength),
          (channel.record.drop offset).take (min size channel.messageLength)⟩ ∧
        last = { channel with
          message := if channel.messageLength ≤ size then none else some (offset + size)
          messageLength := channel.messageLength - size } ∧ rest = stream)
      (channelIngress size) channel stream := by
  unfold channelIngress encryptedIngress
  simp only [Contract.wp_bind, Contract.wp_get, if_pos hencrypted, hmessage]
  exact copyMessage_spec hinside

theorem parse_header {msg : Message} (hmsg : Sendable msg) :
    MessageHeader.parse (FixedBytes.fit sizeofMessageHeader
      (msg.encode.take sizeofMessageHeader)) = ⟨msg.msgType, msg.payload.length⟩ := by
  have hknown := hmsg.known
  have hfits := hmsg.fits
  unfold sizeofEnvelope sizeofMessageHeader at hfits
  unfold msgTypeCount at hknown
  have hfirst : leValue (leBytes 4 msg.msgType) = msg.msgType := by
    rw [leValue_leBytes]
    omega
  have hsecond : leValue (leBytes 4 msg.payload.length) = msg.payload.length := by
    rw [leValue_leBytes]
    omega
  have hheader : msg.encode.take sizeofMessageHeader =
      leBytes 4 msg.msgType ++ leBytes 4 msg.payload.length := List.take_left' (by simp)
  have hfit : (FixedBytes.fit sizeofMessageHeader (msg.encode.take sizeofMessageHeader)).val =
      leBytes 4 msg.msgType ++ leBytes 4 msg.payload.length := by
    rw [hheader]
    exact List.take_left' (by simp)
  simp only [MessageHeader.parse, FixedBytes.slice, hfit, List.drop_zero]
  rw [List.take_left' (leBytes_length 4 _), List.drop_left' (leBytes_length 4 _),
    List.take_of_length_le (leBytes_length 4 _).le, hfirst, hsecond]

/-- What the loop over the payload returns: the rest of the record is the payload. -/
theorem receivePayload_spec {msg : Message} {address fuel : Nat} {stream buffer : Bytes}
    (hfits : msg.payload.length < 2 ^ 31) (hbuffer : buffer.length = msg.payload.length)
    (hencrypted : channel.encrypted = true)
    (hrecord : channel.record = msg.encode) (hlength : channel.messageLength = msg.payload.length)
    (hmessage : channel.message =
      if msg.payload.length = 0 then none else some sizeofMessageHeader) :
    (delivery key sealed).wp (fun reception last rest => reception = .message msg ∧
        last = { channel with message := none, messageLength := 0 } ∧ rest = stream)
      (receivePayload ⟨msg.msgType, msg.payload.length⟩ address (fuel + 1) 0 buffer)
      channel stream := by
  have hencode := encode_length msg
  rw [receivePayload]
  by_cases hempty : msg.payload.length = 0
  · rw [if_neg (by simp [hempty]), Contract.wp_pure]
    have hnothing : buffer = msg.payload := by
      rw [List.length_eq_zero_iff.mp hempty, List.length_eq_zero_iff.mp (hbuffer.trans hempty)]
    rw [if_pos hempty] at hmessage
    rw [hempty] at hlength
    refine ⟨by rw [hnothing], ?_, rfl⟩
    rw [← hmessage, ← hlength]
  · rw [if_neg hempty] at hmessage
    have hpayload : (channel.record.drop sizeofMessageHeader).take msg.payload.length =
        msg.payload := by
      rw [hrecord, Message.encode, List.drop_left' (by simp), List.take_length]
    have hpositive : ¬ Int32.ofNat msg.payload.length < 0 := by
      rw [int32_neg, Int32.toInt_ofNat_of_lt hfits]
      omega
    have hcount : 0 + (Int32.ofNat msg.payload.length).toInt.toNat = msg.payload.length := by
      rw [Int32.toInt_ofNat_of_lt hfits, Int.toNat_natCast, Nat.zero_add]
    have hstored : store buffer 0 msg.payload = msg.payload := by
      rw [store, List.take_zero, List.nil_append, Nat.zero_add, ← hbuffer, List.drop_length,
        List.append_nil]
    rw [if_pos (Nat.pos_of_ne_zero hempty)]
    simp only [Contract.wp_bind]
    refine Contract.wp_mono ?_ (channelIngress_inside hencrypted hmessage
      (by rw [hrecord, hlength, hencode]))
    rintro received last rest ⟨rfl, rfl, rfl⟩
    rw [hlength, Nat.sub_zero, Nat.min_self, hpayload, if_neg hpositive, if_pos le_rfl,
      Nat.sub_self]
    dsimp only
    rw [hcount, hstored, receivePayload.eq_def, if_neg (Nat.lt_irrefl _), Contract.wp_pure]
    exact ⟨rfl, rfl, rfl⟩

/-- What one receive returns, and what it leaves of the channel and of the stream. -/
theorem auntieMsgReceive_spec {record : SealedRecord} {msg : Message} {fuel : Nat} {rest : Bytes}
    (hencrypted : channel.encrypted = true) (hkey : channel.sessionKey = key)
    (hmessage : channel.message = none) (hsealed : record ∈ sealed) (hmsg : Sendable msg)
    (hcarries : Carries record msg channel.ingressSequence) :
    (delivery key sealed).wp (fun reception last stream => reception = .message msg ∧
        last.encrypted = true ∧ last.sessionKey = key ∧ last.message = none ∧
        last.ingressSequence = (channel.ingressSequence + msg.encode.length) % 2 ^ 64 ∧
        stream = rest)
      (auntieMsgReceive (fuel + 1)) channel (wireOf record ++ rest) := by
  have hlength := encode_length msg
  have hfits := hmsg.fits
  have hplaintext := hcarries.plaintext
  unfold sizeofEnvelope at hfits
  have hheader : min sizeofMessageHeader record.plaintext.length = sizeofMessageHeader := by
    rw [hplaintext]
    omega
  unfold auntieMsgReceive
  simp only [Contract.wp_bind]
  refine Contract.wp_mono ?_ (channelIngress_fresh hencrypted hmessage hsealed hcarries.ciphertext
    (by rw [hplaintext]; omega) hkey hcarries.aad)
  rintro received last stream ⟨rfl, ⟨buffer, rfl⟩, rfl⟩
  rw [hheader, hplaintext]
  simp only [Contract.wp_ite, Contract.wp_pure, Contract.wp_bind, Contract.wp_issue, parse_header hmsg]
  refine ⟨fun hshort => absurd (by decide) hshort, fun _ => ⟨fun hunknown => ?_, fun _ => ⟨trivial, ?_⟩⟩⟩
  · exact absurd hmsg.known hunknown.not_gt
  · intro allocation hserved
    cases allocation with
    | none => cases hserved.2.1
    | some allocation =>
      have hbuffer : (allocation.contents.val.drop sizeofMessageHeader).length =
          msg.payload.length := by
        rw [List.length_drop, allocation.contents.property, parse_header hmsg]
        exact Nat.add_sub_cancel_left _ _
      have hleft : msg.encode.length - sizeofMessageHeader = msg.payload.length := by omega
      have hinside : (if msg.encode.length ≤ sizeofMessageHeader then none
          else some sizeofMessageHeader) =
          if msg.payload.length = 0 then none else some sizeofMessageHeader := by
        split
        · rw [if_pos (by omega)]
        · rw [if_neg (by omega)]
      refine Contract.wp_mono ?_ (receivePayload_spec (by omega) hbuffer hencrypted rfl hleft hinside)
      rintro reception last rest ⟨rfl, rfl, rfl⟩
      exact ⟨rfl, hencrypted, hkey, rfl, rfl, rfl⟩

end Receiver

section Runs
variable {key : SessionKey} {sealed : List SealedRecord}

/-- The two ends of an encrypted channel with nothing under way between them. -/
structure Ready (key : SessionKey) (sender receiver : Channel) : Prop where
  senderEncrypted : sender.encrypted = true
  senderKey : sender.sessionKey = key
  receiverEncrypted : receiver.encrypted = true
  receiverKey : receiver.sessionKey = key
  empty : receiver.message = none
  inStep : receiver.ingressSequence = sender.egressSequence

/-- A receive returns the message of the send that matches it. -/
structure Transmits (sent received : Step messageChannel) : Prop where
  sends : sent.result = some (.sent 0)
  receives : ∃ msg, sent.op = .send msg ∧ received.result = some (.received (.message msg))
  empty : received.after.message = none
  inStep : received.after.ingressSequence = sent.after.egressSequence

/-- The call the events end with can be answered by the network. -/
def CanGoOn (key : SessionKey) (sealed : List SealedRecord) (stream : Bytes)
    (events : List (Event Call)) : Prop :=
  ∃ before, ∃ (β : Type) (c : Call β), events = before ++ [.issued c] ∧
    Answerable (before.foldl (delivery key sealed).observe stream) c

theorem CanGoOn.behind {stream : Bytes} {first second : List (Event Call)}
    (h : CanGoOn key sealed (first.foldl (delivery key sealed).observe stream) second) :
    CanGoOn key sealed stream (first ++ second) := by
  obtain ⟨before, β, c, rfl, hanswerable⟩ := h
  refine ⟨first ++ before, β, c, (List.append_assoc _ _ _).symm, ?_⟩
  rwa [List.foldl_append]

def Served : Event Call → Prop
  | .answered c answer => Serves c answer
  | .issued _ => True

instance decidableServed : DecidablePred Served
  | .answered c answer => decidableServes c answer
  | .issued _ => inferInstanceAs (Decidable True)

/-- Every answer of the host and of the cipher is one that serves. -/
def EveryCallServed (events : List (Event Call)) : Prop := ∀ event ∈ events, Served event

theorem send_step {step : Step messageChannel} {msg : Message} (hvalid : step.Valid)
    (hfinished : step.result.isSome) (hop : step.op = .send msg) (hmsg : Sendable msg)
    (hencrypted : step.before.encrypted = true) (hkey : step.before.sessionKey = key)
    (hserved : EveryCallServed step.events) :
    step.result = some (.sent 0) ∧ step.after = { step.before with
        egressSequence := (step.before.egressSequence + msg.encode.length) % 2 ^ 64 } ∧
      ∃ record, Carries record msg step.before.egressSequence ∧
        sentBytes step.events = wireOf record ∧ sealedBy key step.events = [record] := by
  obtain ⟨outcome, hresult⟩ := Option.isSome_iff_exists.mp hfinished
  have hexec : Exec (handleMessage step.op) step.before step.events step.after (some outcome) :=
    hresult ▸ hvalid
  rw [hop] at hexec
  have hhonours : (sending key).Honours ⟨[], []⟩ step.events :=
    Contract.honours_of_answers fun c answer hmem _ => hserved (.answered c answer) hmem
  have hspec : (sending key).wp (fun outcome last m => outcome = .sent 0 ∧
      last = { step.before with
        egressSequence := (step.before.egressSequence + msg.encode.length) % 2 ^ 64 } ∧
      ∃ record, Carries record msg step.before.egressSequence ∧ m = ⟨wireOf record, [record]⟩)
      (handleMessage (.send msg)) step.before ⟨[], []⟩ := by
    unfold handleMessage
    rw [Contract.wp_bind]
    refine Contract.wp_mono ?_ (auntieMsgSend_spec hencrypted hkey hmsg)
    rintro ret last m ⟨rfl, hlast, hrecord⟩
    exact ⟨rfl, hlast, hrecord⟩
  obtain ⟨rfl, hafter, record, hcarries, hsent⟩ := Contract.returned hexec hhonours hspec
  rw [foldl_sending] at hsent
  have hbytes := congrArg Sent.bytes hsent
  have hrecords := congrArg Sent.records hsent
  exact ⟨hresult, hafter, record, hcarries, hbytes, hrecords⟩

theorem receive_spec {record : SealedRecord} {msg : Message} {channel : Channel} (fuel : Nat)
    (rest : Bytes) (hencrypted : channel.encrypted = true) (hkey : channel.sessionKey = key)
    (hmessage : channel.message = none) (hsealed : record ∈ sealed) (hmsg : Sendable msg)
    (hcarries : Carries record msg channel.ingressSequence) :
    (delivery key sealed).wp (fun outcome last stream => outcome = .received (.message msg) ∧
        last.encrypted = true ∧ last.sessionKey = key ∧ last.message = none ∧
        last.ingressSequence = (channel.ingressSequence + msg.encode.length) % 2 ^ 64 ∧
        stream = rest)
      (handleMessage (.receive (fuel + 1))) channel (wireOf record ++ rest) := by
  unfold handleMessage
  rw [Contract.wp_bind]
  refine Contract.wp_mono ?_ (auntieMsgReceive_spec hencrypted hkey hmessage hsealed hmsg hcarries)
  rintro reception last stream ⟨rfl, hlast⟩
  exact ⟨rfl, hlast⟩

/-- One receive against a stream that begins with the record of a message. -/
theorem receive_step {step : Step messageChannel} {record : SealedRecord} {msg : Message}
    {fuel : Nat} {rest : Bytes} (hvalid : step.Valid) (hop : step.op = .receive (fuel + 1))
    (hencrypted : step.before.encrypted = true) (hkey : step.before.sessionKey = key)
    (hmessage : step.before.message = none) (hsealed : record ∈ sealed) (hmsg : Sendable msg)
    (hcarries : Carries record msg step.before.ingressSequence)
    (hhonours : (delivery key sealed).Honours (wireOf record ++ rest) step.events) :
    (step.result = none → CanGoOn key sealed (wireOf record ++ rest) step.events) ∧
      (step.result.isSome → step.result = some (.received (.message msg)) ∧
        step.after.encrypted = true ∧ step.after.sessionKey = key ∧ step.after.message = none ∧
        step.after.ingressSequence =
          (step.before.ingressSequence + msg.encode.length) % 2 ^ 64 ∧
        step.events.foldl (delivery key sealed).observe (wireOf record ++ rest) = rest) := by
  have hspec := receive_spec fuel rest hencrypted hkey hmessage hsealed hmsg hcarries
  rw [← hop] at hspec
  constructor
  · intro hwaiting
    have hexec : Exec (handleMessage step.op) step.before step.events step.after none :=
      hwaiting ▸ hvalid
    exact Contract.waiting hexec hhonours hspec
  · intro hfinished
    obtain ⟨outcome, hresult⟩ := Option.isSome_iff_exists.mp hfinished
    have hexec : Exec (handleMessage step.op) step.before step.events step.after (some outcome) :=
      hresult ▸ hvalid
    obtain ⟨rfl, hlast⟩ := Contract.returned hexec hhonours hspec
    exact ⟨hresult, hlast⟩

theorem eventsOf_cons (step : Step messageChannel) (steps : List (Step messageChannel)) :
    eventsOf (step :: steps) = step.events ++ eventsOf steps := rfl

theorem sentBytes_append (first second : List (Event Call)) :
    sentBytes (first ++ second) = sentBytes first ++ sentBytes second := List.flatMap_append

theorem sealedBy_append (first second : List (Event Call)) :
    sealedBy key (first ++ second) = sealedBy key first ++ sealedBy key second :=
  List.flatMap_append

/-- By induction on the sends: the first receive takes the first record, and leaves the two ends
ready for the rest. -/
theorem transmits_of_ready {sender receiver senderLast receiverLast : Channel}
    {sends receives : List (Step messageChannel)} (ready : Ready key sender receiver)
    (sending : Run messageChannel sender sends senderLast)
    (receiving : Trace messageChannel receiver receives receiverLast)
    (hsends : ∀ step ∈ sends, ∃ msg, step.op = .send msg ∧ Sendable msg)
    (hreceives : ∀ step ∈ receives, ∃ fuel, step.op = .receive (fuel + 1))
    (hcount : receives.length ≤ sends.length) (hserved : EveryCallServed (eventsOf sends))
    (hsealed : ∀ record ∈ sealedBy key (eventsOf sends), record ∈ sealed)
    (hhonours : (delivery key sealed).Honours (sentBytes (eventsOf sends)) (eventsOf receives)) :
    (∀ pair ∈ sends.zip receives, pair.2.result.isSome → Transmits pair.1 pair.2) ∧
      ∀ step ∈ receives, step.result = none →
        CanGoOn key sealed (sentBytes (eventsOf sends)) (eventsOf receives) := by
  induction sends generalizing sender receiver receives with
  | nil =>
    obtain rfl : receives = [] := List.length_eq_zero_iff.mp (by simpa using hcount)
    exact ⟨by simp, by simp⟩
  | cons sent sends ih =>
    cases receives with
    | nil => exact ⟨by simp, by simp⟩
    | cons received receives =>
      obtain ⟨rfl, hvalid, hfinished, hsending⟩ := sending.of_cons
      obtain ⟨rfl, hreceived, hgoes, hwaits⟩ := receiving.of_cons
      obtain ⟨msg, hop, hmsg⟩ := hsends sent List.mem_cons_self
      obtain ⟨fuel, hreceive⟩ := hreceives received List.mem_cons_self
      rw [eventsOf_cons] at hserved hsealed hhonours ⊢
      obtain ⟨hzero, hafter, record, hcarries, hbytes, hrecords⟩ := send_step hvalid hfinished hop
        hmsg ready.senderEncrypted ready.senderKey fun event hmem =>
          hserved event (List.mem_append_left _ hmem)
      rw [sentBytes_append, hbytes, eventsOf_cons] at hhonours ⊢
      rw [sealedBy_append, hrecords] at hsealed
      obtain ⟨hfirst, hrest⟩ := Contract.honours_append.mp hhonours
      obtain ⟨hwaiting, hreturns⟩ := receive_step hreceived hreceive ready.receiverEncrypted
        ready.receiverKey ready.empty (hsealed record (by simp)) hmsg (ready.inStep ▸ hcarries)
        hfirst
      cases hresult : received.result with
      | none =>
        obtain rfl := hwaits hresult
        refine ⟨fun pair hpair hdone => ?_, fun _ _ _ => ?_⟩
        · simp only [List.zip_cons_cons, List.zip_nil_right, List.mem_singleton] at hpair
          rw [hpair, hresult] at hdone
          cases hdone
        · rw [show eventsOf ([] : List (Step messageChannel)) = [] from rfl, List.append_nil]
          exact hwaiting hresult
      | some outcome =>
        have hdone : received.result.isSome := by rw [hresult]; rfl
        obtain ⟨hmessage, hencrypted, hkey, hempty, hsequence, hleft⟩ := hreturns hdone
        rw [hleft] at hrest
        have hinStep : received.after.ingressSequence = sent.after.egressSequence := by
          rw [hsequence, hafter, ready.inStep]
        have hready : Ready key sent.after received.after :=
          { senderEncrypted := by rw [hafter]; exact ready.senderEncrypted
            senderKey := by rw [hafter]; exact ready.senderKey
            receiverEncrypted := hencrypted
            receiverKey := hkey
            empty := hempty
            inStep := hinStep }
        obtain ⟨hpairs, hgoOn⟩ := ih hready hsending (hgoes hdone)
          (fun step hstep => hsends step (List.mem_cons_of_mem _ hstep))
          (fun step hstep => hreceives step (List.mem_cons_of_mem _ hstep))
          (by simpa using hcount)
          (fun event hmem => hserved event (List.mem_append_right _ hmem))
          (fun record hrecord => hsealed record (List.mem_append_right _ hrecord)) hrest
        constructor
        · intro pair hpair
          rw [List.zip_cons_cons] at hpair
          rcases List.mem_cons.mp hpair with rfl | hpair
          · exact fun _ => ⟨hzero, ⟨msg, hop, hmessage⟩, hempty, hinStep⟩
          · exact hpairs pair hpair
        · intro step hstep hnone
          rcases List.mem_cons.mp hstep with rfl | hstep
          · rw [hresult] at hnone
            cases hnone
          · refine CanGoOn.behind ?_
            rw [hleft]
            exact hgoOn step hstep hnone

/-- Receives return the messages sent, in order; a receive that has not returned waits at a
call that the network can answer. -/
theorem message_round_trip {sender receiver senderLast receiverLast : Channel}
    {sends receives : List (Step messageChannel)} (ready : Ready key sender receiver)
    (sending : Run messageChannel sender sends senderLast)
    (receiving : Trace messageChannel receiver receives receiverLast)
    (hsends : ∀ step ∈ sends, ∃ msg, step.op = .send msg ∧ Sendable msg)
    (hreceives : ∀ step ∈ receives, ∃ fuel, step.op = .receive (fuel + 1))
    (hcount : receives.length ≤ sends.length) (hserved : EveryCallServed (eventsOf sends))
    (hhonours : (delivery key (sealedBy key (eventsOf sends))).Honours
      (sentBytes (eventsOf sends)) (eventsOf receives)) :
    (∀ pair ∈ sends.zip receives, pair.2.result.isSome → Transmits pair.1 pair.2) ∧
      ∀ step ∈ receives, step.result = none →
        CanGoOn key (sealedBy key (eventsOf sends)) (sentBytes (eventsOf sends))
          (eventsOf receives) :=
  transmits_of_ready ready sending receiving hsends hreceives hcount hserved
    (fun _ hrecord => hrecord) hhonours

theorem ready_fresh (senderStruct receiverStruct : Allocation sizeofChannel)
    (connection id otherConnection otherId : Nat) :
    Ready key (freshChannel senderStruct connection id key)
      (freshChannel receiverStruct otherConnection otherId key) :=
  ⟨rfl, rfl, rfl, rfl, rfl, rfl⟩

end Runs

section Examples
open RecordAuthenticity (zeroKey zeroStruct)
open StreamIntegrity (wire)

def depositMessage : Message := ⟨msgDepositAndInput, [1, 2, 3]⟩

def emptyMessage : Message := ⟨msgSetupComplete, []⟩

/-- A network that delivers the records of the two messages, bodies at most four bytes at a
time. -/
def splitting {β : Type} (time : Nat) : Call β → Option β
  | .ocallIngress _ target size =>
    match target with
    | .envelope =>
      let msg := if time = 0 then depositMessage else emptyMessage
      let envelope : Envelope := ⟨msg.encode.length, FixedBytes.zero 12, FixedBytes.zero 16⟩
      some (Int32.ofNat size, FixedBytes.fit size envelope.encode)
    | .record offset =>
      let msg := if offset + size = depositMessage.encode.length then depositMessage else emptyMessage
      some (Int32.ofNat (min size 4), FixedBytes.fit size (msg.encode.drop offset))
    | .caller => none
  | c => wire time c

def sends : List (Step messageChannel) :=
  playRun messageChannel wire 0 (freshChannel zeroStruct 0 1 zeroKey)
    [.send depositMessage, .send emptyMessage]

def receives : List (Step messageChannel) :=
  playRun messageChannel splitting 0 (freshChannel zeroStruct 0 2 zeroKey) [.receive 1, .receive 1]

theorem sends_ops {step : Step messageChannel} (h : step ∈ sends) :
    ∃ msg, step.op = .send msg ∧ Sendable msg := by
  have hops : sends.map Step.op = [.send depositMessage, .send emptyMessage] := playRun_ops
  rcases List.mem_cons.mp (hops ▸ List.mem_map_of_mem h) with hop | hop
  · exact ⟨depositMessage, hop, by decide, by decide⟩
  · exact ⟨emptyMessage, List.mem_singleton.mp hop, by decide, by decide⟩

theorem receives_ops {step : Step messageChannel} (h : step ∈ receives) :
    ∃ fuel, step.op = .receive (fuel + 1) := by
  have hops : receives.map Step.op = [.receive 1, .receive 1] := playRun_ops
  rcases List.mem_cons.mp (hops ▸ List.mem_map_of_mem h) with hop | hop
  · exact ⟨0, hop⟩
  · exact ⟨0, List.mem_singleton.mp hop⟩

theorem message_round_trip_played :
    (sends.zip receives).length = 2 ∧ ∀ pair ∈ sends.zip receives, Transmits pair.1 pair.2 := by
  refine ⟨by decide +kernel, fun pair hpair => ?_⟩
  have hfinished : receives.all fun step => step.result.isSome := by decide +kernel
  have hserved : EveryCallServed (eventsOf sends) := by
    unfold EveryCallServed
    decide +kernel
  refine (message_round_trip (ready_fresh zeroStruct zeroStruct 0 1 0 2)
    (run_playRun messageChannel wire _ _ (by decide +kernel))
    (.resting (run_playRun messageChannel splitting _ _ hfinished)) (fun _ => sends_ops)
    (fun _ => receives_ops) (by decide) hserved ?_).1 pair hpair ?_
  · decide +kernel
  · exact List.all_eq_true.mp hfinished pair.2 (List.of_mem_zip hpair).2

end Examples

end Auntie.Guarantees.MessageRoundTrip
