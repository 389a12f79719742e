import Auntie.Guarantees.RecordAuthenticity
import Auntie.Source.Common.Messages

/-!
# What a send reports

`auntie_msg_send` makes the sign of what `channel_egress` returns its result. An encrypted
channel compares the count of the host with the size of the record; a plaintext channel passes
the count on, and a short count is no error.
-/

namespace Auntie.Guarantees.SendReporting
open Auntie.Source Auntie.Source.Channels Auntie.Interaction

section Statement

def counted {β : Type} : Call β → β → List (Bytes × Int32)
  | .ocallEgress _ bytes, count => [(bytes, count)]
  | _, _ => []

/-- What the host was handed, each with the count it returned. -/
def countsIn (events : List (Event Call)) : List (Bytes × Int32) :=
  events.flatMap fun
    | .answered c answer => counted c answer
    | .issued _ => []

/-- What the channel has to hand over for a message: its bytes, or the record they are sealed
in. -/
def Carries (channel : Channel) (msg : Message) (events : List (Event Call)) (bytes : Bytes) :
    Prop :=
  if channel.encrypted then
    ∃ nonce aad ciphertext tag,
      .answered (.sgxAesGcmEncrypt channel.sessionKey msg.encode nonce aad)
        (some (ciphertext, tag)) ∈ events ∧
      bytes = (Envelope.mk (msg.encode.length % 2 ^ 32) nonce tag).encode ++ ciphertext.val
  else bytes = msg.encode

/-- The host has accepted every byte. -/
def Accepted (channel : Channel) (msg : Message) (events : List (Event Call)) : Prop :=
  ∃ handed ∈ countsIn events, Carries channel msg events handed.1 ∧
    (handed.1.length : Int) ≤ handed.2.toInt

/-- The host has accepted some of the bytes only. -/
def ShortWrite (events : List (Event Call)) : Prop :=
  ∃ handed ∈ countsIn events, 0 ≤ handed.2.toInt ∧ handed.2.toInt < handed.1.length

/-- Zero means that everything was accepted, and a short write is an error. -/
def Reports (channel : Channel) (msg : Message) (events : List (Event Call)) (ret : Int32) : Prop :=
  (ret = 0 → Accepted channel msg events) ∧ (ShortWrite events → ret < 0)

end Statement

section Send
variable {channel last : Channel} {msg : Message} {events : List (Event Call)} {ret : Int32}

/-- The events of a send on a plaintext channel, and its result. -/
theorem plaintext_send (hplain : channel.encrypted = false)
    (hexec : Exec (auntieMsgSend msg) channel events last (some ret)) :
    ∃ count, countsIn events = [(msg.encode, count)] ∧ ret = if count < 0 then count else 0 := by
  have hspec : wp tape (fun ret _ events => ∃ count, countsIn events = [(msg.encode, count)] ∧
      ret = if count < 0 then count else 0) (auntieMsgSend msg) channel [] := by
    simp only [auntieMsgSend, channelEgress, plaintextEgress, wp_bind, wp_get, hplain,
      Bool.false_eq_true, if_false, wp_tape_issue, wp_pure]
    exact fun count => ⟨count, rfl, rfl⟩
  exact hexec.taped hspec

theorem plaintext_reports_iff (hplain : channel.encrypted = false)
    (hexec : Exec (auntieMsgSend msg) channel events last (some ret)) :
    Reports channel msg events ret ↔ ¬ ShortWrite events := by
  obtain ⟨count, hcounts, hret⟩ := plaintext_send hplain hexec
  have hcarries : Carries channel msg events msg.encode := by
    rw [Carries, hplain, if_neg Bool.false_ne_true]
  have hshort : ShortWrite events ↔ 0 ≤ count.toInt ∧ count.toInt < msg.encode.length := by
    simp [ShortWrite, hcounts]
  have hneg : count < 0 ↔ count.toInt < 0 := int32_neg
  rw [hshort, Reports, hshort]
  constructor
  · intro hreports hbounds
    have hzero : ret = 0 := by rw [hret, if_neg (by rw [hneg]; omega)]
    have hfailed := hreports.2 hbounds
    rw [hzero] at hfailed
    exact absurd hfailed (by decide)
  · intro hnone
    constructor
    · intro hzero
      have hnonneg : 0 ≤ count.toInt := by
        by_contra hlt
        rw [if_pos (hneg.mpr (by omega))] at hret
        rw [← hret, hzero] at hlt
        exact hlt (by decide)
      have hwhole : (msg.encode.length : Int) ≤ count.toInt := by omega
      exact ⟨(msg.encode, count), hcounts ▸ List.mem_singleton.mpr rfl, hcarries, hwhole⟩
    · exact fun hbounds => absurd hbounds hnone

/-- A record that was accepted to its last byte. -/
theorem whole_record_reports (aad : Bytes) (hencrypted : channel.encrypted = true) {nonce : Nonce}
    {ciphertext : FixedBytes msg.encode.length} {tag : Tag} {count : Int32}
    (hcounts : countsIn events =
      [((Envelope.mk (msg.encode.length % 2 ^ 32) nonce tag).encode ++ ciphertext.val, count)])
    (hsealed : .answered (.sgxAesGcmEncrypt channel.sessionKey msg.encode nonce aad)
      (some (ciphertext, tag)) ∈ events)
    (hcount : count.toInt = sizeofEnvelope + msg.encode.length) : Reports channel msg events ret := by
  have hlength : ((Envelope.mk (msg.encode.length % 2 ^ 32) nonce tag).encode ++
      ciphertext.val).length = sizeofEnvelope + msg.encode.length := by
    rw [List.length_append, Envelope.encode_length, ciphertext.property]
  constructor
  · intro _
    refine ⟨_, hcounts ▸ List.mem_singleton.mpr rfl, ?_, ?_⟩
    · rw [Carries, if_pos hencrypted]
      exact ⟨nonce, aad, ciphertext, tag, hsealed, rfl⟩
    · rw [hlength, hcount]
      exact le_of_eq (Nat.cast_add _ _)
  · rintro ⟨handed, hmem, -, hshort⟩
    rw [hcounts] at hmem
    rw [List.mem_singleton.mp hmem, hlength, hcount] at hshort
    exact absurd hshort (Int.lt_irrefl _)

/-- An encrypted channel returns the size of the message only for a whole record. -/
theorem encrypted_send (hencrypted : channel.encrypted = true) :
    wp tape (fun ret _ events => Reports channel msg events ret) (auntieMsgSend msg) channel [] := by
  have hnomem : ¬ -enomem = 0 ∧ -enomem < 0 := by decide
  have hfault : ¬ -efault = 0 ∧ -efault < 0 := by decide
  have hio : ¬ -eio = 0 ∧ -eio < 0 := by decide
  simp only [auntieMsgSend, channelEgress, encryptedEgress, wp_bind, wp_get, hencrypted, if_true,
    wp_tape_issue]
  intro buffer
  cases buffer with
  | none =>
    simp only [wp_pure, if_pos hnomem.2]
    exact ⟨fun h => absurd h hnomem.1, fun _ => hnomem.2⟩
  | some buffer =>
    simp only [wp_bind, wp_tape_issue]
    intro sealed
    cases sealed with
    | none =>
      simp only [wp_bind, wp_tape_issue, wp_pure, if_pos hfault.2]
      exact fun _ => ⟨fun h => absurd h hfault.1, fun _ => hfault.2⟩
    | some sealed =>
      obtain ⟨ciphertext, tag⟩ := sealed
      simp only [wp_bind, wp_tape_issue, wp_ite, wp_pure, wp_modify]
      intro count _
      constructor
      · intro hcount
        rw [if_pos hio.2]
        exact ⟨fun h => absurd h hio.1, fun _ => hio.2⟩
      · intro hcount
        exact whole_record_reports (leBytes 8 channel.egressSequence) hencrypted rfl (by simp)
          (not_not.mp hcount)

/-- A send reports what the host has accepted exactly when the channel is encrypted or the host
has not accepted some of the bytes only. -/
theorem send_reports_iff (hexec : Exec (auntieMsgSend msg) channel events last (some ret)) :
    Reports channel msg events ret ↔ channel.encrypted = true ∨ ¬ ShortWrite events := by
  cases hmode : channel.encrypted with
  | false => simp [plaintext_reports_iff hmode hexec]
  | true => simp [hexec.taped (encrypted_send hmode)]

end Send

section Examples
open RecordAuthenticity (zeroStruct)

/-- A plaintext channel, and a host that accepts one byte at a time. -/
def plainChannel : Channel := channelCreate zeroStruct 0

def emptyMessage : Message := ⟨msgPlayersQuotesOk, []⟩

def oneByteHost {β : Type} (_ : Nat) : Call β → Option β
  | .ocallEgress _ _ => some 1
  | _ => none

def shortPlayed : List (Event Call) × Channel × Option Int32 :=
  play oneByteHost 0 (auntieMsgSend emptyMessage) plainChannel

theorem shortPlayed_exec :
    Exec (auntieMsgSend emptyMessage) plainChannel shortPlayed.1 shortPlayed.2.1 (some 0) := by
  have hexec := exec_play oneByteHost 0 (auntieMsgSend emptyMessage) plainChannel
  have hresult : (play oneByteHost 0 (auntieMsgSend emptyMessage) plainChannel).2.2 = some 0 := by
    decide +kernel
  rw [hresult] at hexec
  exact hexec

theorem send_reports_played : Reports plainChannel emptyMessage shortPlayed.1 0 ↔
    plainChannel.encrypted = true ∨ ¬ ShortWrite shortPlayed.1 :=
  send_reports_iff shortPlayed_exec

/-- One byte of eight is accepted, and the send returns zero. -/
theorem short_write_unreported :
    ¬ ∀ (channel last : Channel) (msg : Message) (events : List (Event Call)) (ret : Int32),
      Exec (auntieMsgSend msg) channel events last (some ret) → Reports channel msg events ret := by
  intro hall
  have hcounts : countsIn shortPlayed.1 = [(emptyMessage.encode, 1)] := by decide +kernel
  have hshort : ShortWrite shortPlayed.1 :=
    ⟨(emptyMessage.encode, 1), hcounts ▸ List.mem_singleton.mpr rfl, by decide, by decide +kernel⟩
  have hfailed := (hall _ _ _ _ _ shortPlayed_exec).2 hshort
  exact absurd hfailed (by decide)

end Examples

end Auntie.Guarantees.SendReporting
