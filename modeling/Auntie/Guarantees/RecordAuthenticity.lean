import Auntie.Source.Common.Channel

/-!
# Which bytes an encrypted channel delivers

`encrypted_ingress` keeps the record it is reading in the channel. When a read of
the body fails after its first bytes, or the decryption fails, the call returns an
error but leaves `channel->message` on the record. The next call takes it for a
record that was decrypted and copies out what the host sent.

`ingress_delivers_opened_records` says when this cannot happen: in every run in
which the host leaves no record half read, the bytes delivered are a prefix of the
bytes opened by `sgx_aes_gcm_decrypt` under the session key, each record with the
number of bytes opened before it, which is the ingress sequence of the channel, as
associated data. Calls of `channel_egress` may come in between.
-/

namespace Auntie.Guarantees.RecordAuthenticity
open Auntie.Source Auntie.Source.Channels Auntie.Interaction

/-- What the log of a channel has shown so far: the bytes `channel_ingress` returned, the
length the last envelope declared, and the bytes of the records opened whole under the
session key, each with the number of bytes opened before it as associated data. -/
structure Observed where
  delivered : Bytes
  declared : Nat
  opened : Bytes
  whole : Prop

/-- The answer leaves no record half read: it is no longer than was asked for, a read
that ends the call with an error has not begun the record, and decryption succeeds. -/
def KeepsWhole {β : Type} : Call β → β → Prop
  | .ocallIngress _ target size, (ret, _) =>
    match target with
    | .record offset => ret.toInt ≤ size ∧ (0 < ret.toInt ∨ offset = 0)
    | .caller | .envelope => True
  | .sgxAesGcmDecrypt _ source _ _ _, (success, _) => success = true ∨ source = []
  | _, _ => True

section
variable (key : SessionKey)

def declare (m : Observed) {β : Type} : Call β → β → Nat
  | .ocallIngress _ target _, (_, bytes) =>
    match target with
    | .envelope => leValue (bytes.val.take 4)
    | .caller | .record _ => m.declared
  | _, _ => m.declared

def openRecord (m : Observed) {β : Type} : Call β → β → Bytes
  | .sgxAesGcmDecrypt usedKey source _ aad _, (success, plaintext) =>
    if success ∧ usedKey = key ∧ aad = leBytes 8 m.opened.length ∧ source.length = m.declared then
      m.opened ++ plaintext.val
    else m.opened
  | _, _ => m.opened

def observer : Observer openChannel Observed where
  host := {
    answered m c answer :=
      ⟨m.delivered, declare m c answer, openRecord key m c answer, m.whole ∧ KeepsWhole c answer⟩ }
  leave m _ ret := { m with delivered := m.delivered ++ ret.bytes }

def unread (channel : Channel) : Bytes :=
  match channel.message with
  | none => []
  | some offset => (channel.record.drop offset).take channel.messageLength

/-- The channel is encrypted under the key and counts the bytes opened. -/
structure Keyed (channel : Channel) (m : Observed) : Prop where
  encrypted : channel.encrypted = true
  sessionKey : channel.sessionKey = key
  sequence : channel.ingressSequence = m.opened.length % 2 ^ 64

/-- Between two calls: what was opened is what was delivered and what is unread. -/
structure Synced (channel : Channel) (m : Observed) : Prop extends Keyed key channel m where
  inside : ∀ offset, channel.message = some offset →
    offset + channel.messageLength ≤ channel.record.length
  pending : m.delivered ++ unread channel = m.opened

variable {key} {channel : Channel} {m : Observed}

@[simp] theorem observer_issued {β : Type} (c : Call β) : (observer key).host.issued m c = m := rfl

@[simp] theorem observer_answered {β : Type} (c : Call β) (answer : β) :
    (observer key).host.answered m c answer =
      ⟨m.delivered, declare m c answer, openRecord key m c answer,
        m.whole ∧ KeepsWhole c answer⟩ := rfl

theorem readMessage_spec {offset count : Nat} {post : Bytes → Channel → Observed → Prop}
    (hpost : ∀ bytes, (offset + count ≤ channel.record.length →
      bytes = (channel.record.drop offset).take count) → post bytes channel m) :
    wp (observer key).host post (readMessage offset count) channel m := by
  unfold readMessage
  simp only [wp_bind, wp_get, wp_ite, wp_issue, wp_pure]
  constructor
  · intro hshort
    refine ⟨trivial, fun past => ?_⟩
    simp only [observer_issued, observer_answered, declare, openRecord, KeepsWhole, and_true]
    apply hpost
    intro hinside
    rw [List.length_take, List.length_drop] at hshort
    omega
  · intro _
    exact hpost _ fun _ => rfl

/-- What the loop leaves: the whole body, or on an error nothing of it. -/
structure Filled (length : Nat) (result : Option Int32) (record : Bytes) (messageLength : Nat) :
    Prop where
  record : record.length = length
  messageLength : messageLength = if result.isSome then 0 else length

theorem fillRecord_spec {length : Nat} (body : Allocation length) (messageLength : Nat)
    (hlength : channel.messageLength = messageLength)
    (hrecord : channel.record.length = length) (hinside : m.whole → messageLength ≤ length)
    {post : Option Int32 → Channel → Observed → Prop}
    (hpost : ∀ result record left whole, (whole → m.whole ∧ Filled length result record left) →
      post result { channel with record := record, messageLength := left }
        { m with whole := whole }) :
    wp (observer key).host post (fillRecord body messageLength) channel m := by
  induction messageLength using @fillRecord.induct length generalizing channel m with
  | case1 messageLength hless ih =>
    rw [fillRecord, if_pos hless]
    simp only [wp_bind, wp_get, wp_issue, wp_set, wp_dite, wp_pure, wp_modify]
    refine ⟨trivial, fun answer => ?_⟩
    obtain ⟨ret, bytes⟩ := answer
    have hfilled : (channel.record.take messageLength ++ bytes.val).length = length := by
      rw [List.length_append, List.length_take, bytes.property]
      omega
    simp only [observer_issued, observer_answered, declare, openRecord, KeepsWhole]
    refine ⟨fun hneg => ?_, fun hneg => ⟨fun hzero => ?_, fun hzero => ?_⟩⟩
    · rw [int32_neg] at hneg
      refine hpost _ _ _ _ fun hkept => ⟨hkept.1, hfilled, ?_⟩
      obtain ⟨hwhole, _, hbegun⟩ := hkept
      have hstart : messageLength = 0 := by omega
      rw [hlength, hstart]
      rfl
    · rw [int32_zero] at hzero
      refine hpost _ _ _ _ fun hkept => ⟨hkept.1, hfilled, ?_⟩
      obtain ⟨hwhole, _, hbegun⟩ := hkept
      have hstart : messageLength = 0 := by omega
      rw [hlength, hstart]
      rfl
    · have hnonneg := int32_neg.not.mp hneg
      apply ih ret hneg hzero rfl hfilled
      · rintro ⟨_, hasked, _⟩
        omega
      · intro result record left whole hrest
        exact hpost _ _ _ _ fun hwhole => ⟨(hrest hwhole).1.1, (hrest hwhole).2⟩
  | case2 messageLength hdone =>
    rw [fillRecord, if_neg hdone, wp_pure]
    refine hpost none channel.record channel.messageLength m.whole fun hwhole => ⟨hwhole, hrecord, ?_⟩
    have := hinside hwhole
    simp only [Option.isSome_none, Bool.false_eq_true, ite_false]
    omega

/-- A body that was read whole is opened whole: nothing of it has been delivered. -/
theorem decryptRecord_spec (envelope : Envelope) (hmessage : channel.message = some 0)
    (hread : m.whole → Keyed key channel m ∧ m.delivered = m.opened ∧
      channel.record.length = envelope.length ∧ channel.messageLength = envelope.length)
    (hdeclared : m.declared = envelope.length)
    {post : Option Int32 → Channel → Observed → Prop}
    (hpost : ∀ result after m', (m'.whole → Synced key after m') → after.message = some 0 →
      post result after m') :
    wp (observer key).host post (decryptRecord envelope) channel m := by
  unfold decryptRecord
  simp only [wp_bind, wp_get]
  apply readMessage_spec
  intro source hsource
  simp only [wp_issue, wp_bind, wp_modify, wp_ite, wp_pure]
  refine ⟨trivial, fun answer => ?_⟩
  obtain ⟨success, plaintext⟩ := answer
  simp only [observer_issued, observer_answered, declare, openRecord, KeepsWhole]
  have hsource : m.whole → source.length = envelope.length := by
    intro hwhole
    obtain ⟨_, _, hrecord, hlength⟩ := hread hwhole
    rw [hsource (by omega), List.drop_zero, List.length_take]
    omega
  have hplaintext := plaintext.property
  constructor
  · intro hfailed
    refine hpost _ _ _ ?_ hmessage
    rintro ⟨hwhole, hok⟩
    obtain ⟨hkeyed, hdelivered, hrecord, hlength⟩ := hread hwhole
    have hfalse : success = false := by simpa using hfailed
    have hempty : envelope.length = 0 := by
      rw [← hsource hwhole, hok.resolve_left (by simp [hfalse])]
      rfl
    rw [hempty] at hlength
    simp only [hfalse, Bool.false_eq_true, false_and, ite_false]
    refine ⟨⟨hkeyed.encrypted, hkeyed.sessionKey, hkeyed.sequence⟩, ?_, ?_⟩
    · intro offset hoffset
      cases hmessage.symm.trans hoffset
      simp [hlength]
    · simpa [unread, hmessage, hlength] using hdelivered
  · intro hok
    refine hpost _ _ _ ?_ hmessage
    rintro ⟨hwhole, _⟩
    obtain ⟨hkeyed, hdelivered, hrecord, hlength⟩ := hread hwhole
    have hsuccess : success = true := by simpa using hok
    have haad : leBytes 8 channel.ingressSequence = leBytes 8 m.opened.length := by
      rw [hkeyed.sequence]
      exact leBytes_mod 8 _
    have hlengths := hsource hwhole
    have htake : plaintext.val.take channel.record.length = plaintext.val :=
      List.take_of_length_le (by omega)
    simp only [hsuccess, hkeyed.sessionKey, haad, hdeclared, hlengths, and_self, ite_true, htake]
    refine ⟨⟨hkeyed.encrypted, rfl, ?_⟩, ?_, ?_⟩
    · simp only [hkeyed.sequence, List.length_append]
      omega
    · intro offset hoffset
      cases hmessage.symm.trans hoffset
      simp only
      omega
    · have hunread : plaintext.val.take channel.messageLength = plaintext.val :=
        List.take_of_length_le (by omega)
      simp only [unread, hmessage, List.drop_zero, hunread, hdelivered]

theorem nextRecord_spec (hmessage : channel.message = none) (hsynced : m.whole → Synced key channel m)
    {post : Option Int32 → Channel → Observed → Prop}
    (hpost : ∀ result after m', (m'.whole → Synced key after m') →
      (result = none → after.message = some 0) → post result after m') :
    wp (observer key).host post nextRecord channel m := by
  unfold nextRecord
  simp only [wp_bind, wp_get, wp_issue]
  refine ⟨trivial, fun answer => ?_⟩
  obtain ⟨ret, header⟩ := answer
  simp only [observer_issued, observer_answered, declare, openRecord, KeepsWhole, and_true, wp_ite, wp_bind,
    wp_issue, wp_pure]
  have hheader : m.whole → Synced key channel { m with declared := leValue (header.val.take 4) } :=
    fun hwhole => by
      obtain ⟨hkeyed, hinside, hpending⟩ := hsynced hwhole
      exact ⟨⟨hkeyed.encrypted, hkeyed.sessionKey, hkeyed.sequence⟩, hinside, hpending⟩
  refine ⟨fun _ => hpost _ _ _ hheader (by simp), fun _ => ⟨trivial, ?_⟩⟩
  intro body
  cases body with
  | none => exact hpost _ _ _ hheader (by simp)
  | some body =>
    simp only [wp_bind, wp_modify]
    apply fillRecord_spec body 0 rfl body.contents.property (fun _ => Nat.zero_le _)
    intro result record left whole hfilled
    have hdelivered : m.whole → m.delivered = m.opened := fun hwhole => by
      simpa [unread, hmessage] using (hsynced hwhole).pending
    cases result with
    | some error =>
      refine hpost _ _ _ (fun hwhole' => ?_) (by simp)
      obtain ⟨hwhole, hrecord, hleft⟩ := hfilled hwhole'
      refine ⟨⟨(hsynced hwhole).encrypted, (hsynced hwhole).sessionKey,
        (hsynced hwhole).sequence⟩, ?_, ?_⟩
      · rintro offset ⟨⟩
        simp [hleft]
      · simpa [unread, hleft] using hdelivered hwhole
    | none =>
      refine decryptRecord_spec (Envelope.parse header) rfl (fun hwhole' => ?_)
        rfl (fun result after m' hafter hmessage => hpost result after m' hafter fun _ => hmessage)
      obtain ⟨hwhole, hrecord, hleft⟩ := hfilled hwhole'
      exact ⟨⟨(hsynced hwhole).encrypted, (hsynced hwhole).sessionKey, (hsynced hwhole).sequence⟩,
        hdelivered hwhole, hrecord, hleft⟩

/-- What the caller is handed next to the state the call leaves. -/
def Delivers (key : SessionKey) (received : Received) (after : Channel) (m : Observed) : Prop :=
  m.whole → Synced key after { m with delivered := m.delivered ++ received.bytes }

theorem copyMessage_spec {offset size : Nat} (hmessage : channel.message = some offset)
    (hsynced : m.whole → Synced key channel m) :
    wp (observer key).host (Delivers key) (copyMessage offset size) channel m := by
  unfold copyMessage
  simp only [wp_bind, wp_get]
  generalize hmoved : (if channel.messageLength > size then size else channel.messageLength) = moved
  have hle : moved ≤ channel.messageLength := by
    rw [← hmoved]
    split <;> omega
  apply readMessage_spec
  intro bytes hbytes
  have hsplit : m.whole → m.delivered ++ bytes ++ (channel.record.drop (offset + moved)).take
      (channel.messageLength - moved) = m.opened := by
    intro hwhole
    have hpending := (hsynced hwhole).pending
    have hinside := (hsynced hwhole).inside offset hmessage
    simp only [unread, hmessage] at hpending
    rw [hbytes (by omega), List.append_assoc, ← List.drop_drop, ← hpending]
    congr 1
    rw [← List.take_add, Nat.add_sub_cancel' hle]
  simp only [wp_modify, wp_bind, wp_ite, wp_issue, wp_set, wp_pure, observer_issued,
    observer_answered, declare, openRecord, KeepsWhole, and_true]
  constructor
  · intro hdone
    refine ⟨trivial, fun _ hwhole => ?_⟩
    obtain ⟨hkeyed, _, _⟩ := hsynced hwhole
    refine ⟨⟨hkeyed.encrypted, hkeyed.sessionKey, hkeyed.sequence⟩, (by simp), ?_⟩
    simpa [unread, hdone] using hsplit hwhole
  · intro _ hwhole
    obtain ⟨hkeyed, hinside, _⟩ := hsynced hwhole
    have := hinside offset hmessage
    refine ⟨⟨hkeyed.encrypted, hkeyed.sessionKey, hkeyed.sequence⟩, ?_, hsplit hwhole⟩
    rintro _ ⟨⟩
    simp only
    omega

theorem encryptedIngress_spec {size : Nat} (hsynced : m.whole → Synced key channel m) :
    wp (observer key).host (Delivers key) (encryptedIngress size) channel m := by
  unfold encryptedIngress
  simp only [wp_bind, wp_get]
  cases hmessage : channel.message with
  | some offset => exact copyMessage_spec hmessage hsynced
  | none =>
    simp only [wp_bind]
    apply nextRecord_spec hmessage hsynced
    intro result after m' hafter hstart
    cases result with
    | none => exact copyMessage_spec (hstart rfl) hafter
    | some error =>
      intro hwhole
      simpa using hafter hwhole

theorem encryptedEgress_spec {bytes : Bytes} (hsynced : m.whole → Synced key channel m)
    {post : Int32 → Channel → Observed → Prop}
    (hpost : ∀ ret after, (m.whole → Synced key after m) → post ret after m) :
    wp (observer key).host post (encryptedEgress bytes) channel m := by
  unfold encryptedEgress
  simp only [wp_bind, wp_get, wp_issue, observer_issued, observer_answered, declare, openRecord, KeepsWhole,
    and_true]
  refine ⟨trivial, fun allocation => ?_⟩
  cases allocation with
  | none => exact hpost _ _ hsynced
  | some xmitBuffer =>
    simp only [wp_bind, wp_issue, observer_issued, observer_answered, declare, openRecord, KeepsWhole,
      and_true]
    refine ⟨trivial, fun encrypted => ?_⟩
    cases encrypted with
    | none =>
      simp only [wp_bind, wp_issue, wp_pure, observer_issued, observer_answered, openRecord,
        KeepsWhole, and_true]
      exact ⟨trivial, fun _ => hpost _ _ hsynced⟩
    | some record =>
      simp only [wp_bind, wp_issue, wp_ite, wp_modify, wp_pure, observer_issued, observer_answered,
        openRecord, KeepsWhole, and_true]
      refine ⟨trivial, fun ret => ⟨trivial, fun _ => ⟨fun _ => hpost _ _ hsynced, fun _ => ?_⟩⟩⟩
      refine hpost _ _ fun hwhole => ?_
      obtain ⟨hkeyed, hinside, hpending⟩ := hsynced hwhole
      exact ⟨⟨hkeyed.encrypted, hkeyed.sessionKey, hkeyed.sequence⟩, hinside, hpending⟩

/-- Nothing is demanded once the host has left a record half read. -/
theorem wp_broken {α : Type} (p : Code α) {post : α → Channel → Observed → Prop}
    (hpost : ∀ value last m', ¬ m'.whole → post value last m') (hbroken : ¬ m.whole) :
    wp (observer key).host post p channel m := by
  induction p generalizing channel m with
  | pure value => exact hpost value channel m hbroken
  | get next ih => exact ih channel hbroken
  | set state next ih => exact ih hbroken
  | call c next ih => exact ⟨trivial, fun answer => ih answer fun hwhole => hbroken hwhole.1⟩

/-- Every operation of an encrypted channel keeps what was opened and what was delivered
in step. -/
theorem handle_preserves (op : Operation) (hsynced : m.whole → Synced key channel m) :
    wp (observer key).host (Delivers key) (handle op) channel m := by
  by_cases hwhole : m.whole
  · have hencrypted := (hsynced hwhole).encrypted
    cases op with
    | ingress size =>
      simp only [handle, channelIngress, wp_bind, wp_get, hencrypted, ite_true]
      exact encryptedIngress_spec hsynced
    | egress bytes =>
      simp only [handle, channelEgress, wp_bind, wp_get, hencrypted, ite_true]
      apply encryptedEgress_spec hsynced
      intro ret after hafter hwhole
      simpa using hafter hwhole
  · exact wp_broken _ (fun _ _ _ hbroken hwhole' => absurd hwhole' hbroken) hwhole

theorem synced_start (struct : Allocation sizeofChannel) (connection : Nat) :
    Synced key (channelEncrypt (channelCreate struct connection) key) ⟨[], 0, [], True⟩ :=
  ⟨⟨rfl, rfl, rfl⟩, (fun _ h => by cases h), rfl⟩

/-- What is delivered and unread is what was opened, as long as no record is left half read. -/
theorem run_synced {init state : Channel} {steps : List (Step openChannel)}
    (run : Run openChannel init steps state) (hinit : Synced key init ⟨[], 0, [], True⟩) :
    ((logOf steps).foldl (observer key).observe ⟨[], 0, [], True⟩).whole →
      Synced key state ((logOf steps).foldl (observer key).observe ⟨[], 0, [], True⟩) := by
  have hstep : ∀ op state m, True → (m.whole → Synced key state m) →
      (observer key).Preserves (fun channel m => m.whole → Synced key channel m) op state m :=
    fun op state m _ hsynced => handle_preserves op hsynced
  exact run.invariant (fun _ _ => trivial) (fun _ => hinit) hstep

end

section
variable (key : SessionKey)

/-- What the log of a channel shows, from the switch to encryption on. -/
def observed (log : List (Entry openChannel)) : Observed :=
  log.foldl (observer key).observe ⟨[], 0, [], True⟩

/-- Every byte delivered comes, in order and once, from a record that was opened whole. -/
def Authenticated (log : List (Entry openChannel)) : Prop :=
  (observed key log).delivered <+: (observed key log).opened

/-- No answer of the host leaves a record half read. -/
def EveryRecordWhole (log : List (Entry openChannel)) : Prop :=
  ∀ {β : Type} (c : Call β) (answer : β), .host (.answered c answer) ∈ log → KeepsWhole c answer

theorem foldl_whole (log : List (Entry openChannel)) (m : Observed) (hm : m.whole)
    (h : EveryRecordWhole log) : (log.foldl (observer key).observe m).whole := by
  induction log generalizing m with
  | nil => exact hm
  | cons entry log ih =>
    have hrest : EveryRecordWhole log := fun c answer hmem =>
      h c answer (List.mem_cons_of_mem _ hmem)
    rw [List.foldl_cons]
    refine ih _ ?_ hrest
    match entry with
    | .entered op => exact hm
    | .host (.issued c) => exact hm
    | .host (.answered c answer) => exact ⟨hm, h c answer List.mem_cons_self⟩
    | .returned op ret => exact hm

/-- In every run of an encrypted channel in which the host leaves no record half read,
`channel_ingress` delivers only bytes of records that `sgx_aes_gcm_decrypt` opened under
the session key and the sequence number of the channel. -/
theorem ingress_delivers_opened_records (struct : Allocation sizeofChannel) (connection : Nat)
    {steps : List (Step openChannel)} {state : Channel}
    (run : Run openChannel (channelEncrypt (channelCreate struct connection) key) steps state)
    (hwhole : EveryRecordWhole (logOf steps)) :
    Authenticated key (logOf steps) ∧
      state.ingressSequence = (observed key (logOf steps)).opened.length % 2 ^ 64 := by
  have hsynced := run_synced run (synced_start struct connection)
    (foldl_whole key (logOf steps) ⟨[], 0, [], True⟩ trivial hwhole)
  exact ⟨⟨unread state, hsynced.pending⟩, hsynced.sequence⟩
end

section Examples

def zeroKey : SessionKey := FixedBytes.zero 16

def zeroStruct : Allocation sizeofChannel := ⟨0, FixedBytes.zero sizeofChannel, by decide⟩

def zeroChannel : Channel := channelEncrypt (channelCreate zeroStruct 0) zeroKey

/-- Sends records of eight bytes: the envelope, then what `body` makes of a read at an
offset of the record. Its cipher is the identity. -/
def recordHost (body : Nat → Nat → Option Int32) {β : Type} (_ : Nat) : Call β → Option β
  | .ocallIngress _ target size =>
    match target with
    | .envelope => some (32, FixedBytes.fit size [8])
    | .record offset =>
      (body offset size).map fun ret => (ret, FixedBytes.fit size (List.replicate 8 7))
    | .caller => none
  | .malloc size =>
    some (if fits : size ≤ heapMaxSize then some ⟨0, FixedBytes.zero size, fits⟩ else none)
  | .free _ => some ()
  | .sgxAesGcmDecrypt _ source _ _ _ => some (true, .ofBytes source)
  | _ => none

def wholeHost {β : Type} : Nat → Call β → Option β :=
  recordHost fun _ size => if size = 8 then some 8 else none

theorem wholeHost_keepsWhole {β : Type} (time : Nat) (c : Call β) (answer : β)
    (h : wholeHost time c = some answer) : KeepsWhole c answer := by
  cases c with
  | ocallIngress connection target size =>
    cases target with
    | record offset =>
      simp only [wholeHost, recordHost, Option.map_eq_some_iff, Option.ite_none_right_eq_some] at h
      obtain ⟨ret, ⟨rfl, hret⟩, rfl⟩ := h
      cases hret
      exact ⟨by decide, Or.inl (by decide)⟩
    | caller => trivial
    | envelope => trivial
  | sgxAesGcmDecrypt key source nonce aad tag =>
    cases h
    exact Or.inl rfl
  | _ => trivial

/-- Two calls share a record of eight bytes. -/
theorem ingress_delivers_opened_records_twice :
    Authenticated zeroKey (logOf (playRun openChannel wholeHost 0 zeroChannel
      [.ingress 5, .ingress 8])) ∧
    (observed zeroKey (logOf (playRun openChannel wholeHost 0 zeroChannel
      [.ingress 5, .ingress 8]))).delivered = List.replicate 8 7 :=
  ⟨(ingress_delivers_opened_records zeroKey zeroStruct 0
    (run_playRun openChannel wholeHost zeroChannel [.ingress 5, .ingress 8] (by decide +kernel))
    (fun c answer h =>
      have ⟨time, hanswer⟩ := playRun_answered h
      wholeHost_keepsWhole time c answer hanswer)).1, by decide +kernel⟩

def brokenHost {β : Type} : Nat → Call β → Option β :=
  recordHost fun offset _ => some (if offset = 0 then 4 else -eio)

/-- The host sends half of the record, then reports an error: the second call delivers
that half although no record was ever opened. -/
theorem ingress_delivers_unopened_bytes :
    ∃ steps state, Run openChannel zeroChannel steps state ∧
      (observed zeroKey (logOf steps)).opened = [] ∧
      (observed zeroKey (logOf steps)).delivered = [7, 7, 7, 7] ∧
      ¬ Authenticated zeroKey (logOf steps) := by
  have hopened : (observed zeroKey (logOf (playRun openChannel brokenHost 0 zeroChannel
      [.ingress 8, .ingress 8]))).opened = [] := by decide +kernel
  have hdelivered : (observed zeroKey (logOf (playRun openChannel brokenHost 0 zeroChannel
      [.ingress 8, .ingress 8]))).delivered = [7, 7, 7, 7] := by decide +kernel
  refine ⟨_, _, run_playRun openChannel brokenHost zeroChannel [.ingress 8, .ingress 8]
    (by decide +kernel), hopened, hdelivered, ?_⟩
  rw [Authenticated, hopened, hdelivered]
  decide

end Examples

end Auntie.Guarantees.RecordAuthenticity
