import Auntie.Guarantees.RecordAuthenticity

/-!
# The stream between the two ends of a channel

Each end authenticates with every record the number of bytes it has sent before, and opens a
record with the number of bytes it has opened before. Both directions use one session key, and
nothing in a record names its direction: a record sent back to where it came from opens there.
Where no end opens a non-empty record of its own, what an end delivers is an initial part of
what the other end has sent.

The results are about the traces of the two ends at one moment: whatever the network did, a
record that has been opened has been produced before.
-/

namespace Auntie.Guarantees.StreamIntegrity
open Auntie.Source Auntie.Source.Channels Auntie.Interaction
open RecordAuthenticity (KeepsWhole EveryRecordWhole)

section Streams

/-- The bytes passed to `channel_egress`, those of a call that has not returned included. -/
def passed (log : List (Entry openChannel)) : Bytes :=
  log.flatMap fun
    | .entered (.egress bytes) => bytes
    | _ => []

/-- The bytes `channel_ingress` stored in the buffers of its callers. -/
def delivered (log : List (Entry openChannel)) : Bytes :=
  log.flatMap fun
    | .returned _ received => received.bytes
    | _ => []

/-- A record as the cipher sees it. -/
structure SealedRecord where
  plaintext : Bytes
  nonce : Nonce
  aad : Bytes
  ciphertext : Bytes
  tag : Tag
  deriving DecidableEq

variable (key : SessionKey)

def sealedIn {β : Type} : Call β → β → Option SealedRecord
  | .sgxAesGcmEncrypt usedKey source nonce aad, answer =>
    if usedKey = key then answer.map fun (ciphertext, tag) => ⟨source, nonce, aad, ciphertext.val, tag⟩
    else none
  | _, _ => none

def openedIn {β : Type} : Call β → β → Option SealedRecord
  | .sgxAesGcmDecrypt usedKey source nonce aad tag, (success, plaintext) =>
    if usedKey = key ∧ success then some ⟨plaintext.val, nonce, aad, source, tag⟩ else none
  | _, _ => none

/-- The records sealed under the key. -/
def produced (log : List (Entry openChannel)) : List SealedRecord :=
  log.filterMap fun
    | .host (.answered c answer) => sealedIn key c answer
    | _ => none

/-- The records opened under the key. -/
def opened (log : List (Entry openChannel)) : List SealedRecord :=
  log.filterMap fun
    | .host (.answered c answer) => openedIn key c answer
    | _ => none

/-- Only what a holder of the key has sealed can be opened, and it opens to what was sealed. -/
def IdealCipher (log other : List (Entry openChannel)) : Prop :=
  ∀ record ∈ opened key log, record ∈ produced key log ∨ record ∈ produced key other

/-- No non-empty record is opened by the end that sealed it. -/
def NotReflected (log : List (Entry openChannel)) : Prop :=
  ∀ record ∈ opened key log, record.plaintext ≠ [] → record ∉ produced key log

theorem mem_produced {key : SessionKey} {log : List (Entry openChannel)} {record : SealedRecord}
    (h : record ∈ produced key log) : ∃ answer,
      .host (.answered (.sgxAesGcmEncrypt key record.plaintext record.nonce record.aad) answer) ∈
        log := by
  obtain ⟨entry, hentry, hsealed⟩ := List.mem_filterMap.mp h
  rcases entry with op | (c | ⟨c, answer⟩) | ⟨op, received⟩
  · cases hsealed
  · cases hsealed
  · cases c with
    | sgxAesGcmEncrypt usedKey source nonce aad =>
      simp only [sealedIn, Option.ite_none_right_eq_some, Option.map_eq_some_iff] at hsealed
      obtain ⟨rfl, _, -, rfl⟩ := hsealed
      exact ⟨answer, hentry⟩
    | _ => cases hsealed
  · cases hsealed

theorem mem_opened {key : SessionKey} {log : List (Entry openChannel)} {source : Bytes}
    {nonce : Nonce} {aad : Bytes} {tag : Tag} {plaintext : FixedBytes source.length}
    (h : .host (.answered (.sgxAesGcmDecrypt key source nonce aad tag) (true, plaintext)) ∈ log) :
    ⟨plaintext.val, nonce, aad, source, tag⟩ ∈ opened key log :=
  List.mem_filterMap.mpr ⟨_, h, if_pos ⟨rfl, rfl⟩⟩

theorem opened_append (key : SessionKey) (first second : List (Entry openChannel)) :
    opened key (first ++ second) = opened key first ++ opened key second := List.filterMap_append

end Streams

section Runs

/-- An encrypted channel at its start. -/
def freshChannel (struct : Allocation sizeofChannel) (connection id : Nat) (key : SessionKey) :
    Channel :=
  channelEncrypt (channelAssignId (channelCreate struct connection) id) key

/-- The call has not failed: it returned no error, or has not returned. -/
def Succeeds (step : Step openChannel) : Prop :=
  ∀ received : Received, step.result = some received → 0 ≤ received.ret.toInt

/-- No call on the channel has failed. -/
def NoFailure (steps : List (Step openChannel)) : Prop := ∀ step ∈ steps, Succeeds step

/-- The network does not hand over more than was asked for. -/
def FitsBuffer {β : Type} : Call β → β → Prop
  | .ocallIngress _ _ size, (ret, _) => ret.toInt ≤ size
  | _, _ => True

def EveryReadFits (log : List (Entry openChannel)) : Prop :=
  ∀ {β : Type} (c : Call β) (answer : β), .host (.answered c answer) ∈ log → FitsBuffer c answer

end Runs

section Sender
variable {key : SessionKey}

/-- What an egress leaves of the counters when it succeeds. -/
structure Sends (key : SessionKey) (sent : Nat) (channel : Channel) : Prop where
  encrypted : channel.encrypted = true
  sessionKey : channel.sessionKey = key
  sequence : channel.egressSequence = sent % 2 ^ 64

/-- The bytes an operation passes to the channel. -/
def bytesOf : Operation → Bytes
  | .ingress _ => []
  | .egress bytes => bytes

/-- The calls of `channel_ingress`: nothing is sealed, and nothing sent. -/
def ReadsOnly {β : Type} : Call β → Prop
  | .sgxAesGcmEncrypt _ _ _ _ | .ocallEgress _ _ => False
  | _ => True

section Ingress
open Program (Within)
variable {sent : Nat}

theorem readMessage_within {keeps : Channel → Prop} (offset count : Nat) :
    (readMessage offset count).Within ReadsOnly keeps := by
  unfold readMessage
  apply Within.get_bind
  intro channel _
  dsimp only
  split
  · exact Within.bind (Within.issue trivial) fun _ => Within.value _
  · exact Within.value _

theorem fillRecord_within {length : Nat} (body : Allocation length) (messageLength : Nat) :
    (fillRecord body messageLength).Within ReadsOnly (Sends key sent) := by
  induction messageLength using @fillRecord.induct length with
  | case1 messageLength hless ih =>
    rw [fillRecord, if_pos hless]
    apply Within.get_bind
    intro channel hchannel
    refine Within.bind (Within.issue trivial) fun answer => ?_
    refine ⟨⟨hchannel.encrypted, hchannel.sessionKey, hchannel.sequence⟩, ?_⟩
    change Program.Within ReadsOnly (Sends key sent) (dite _ _ _)
    split
    · exact Within.value _
    · split
      · exact Within.value _
      · rename_i hneg hzero
        refine Within.bind (Within.update fun channel h => ?_) fun _ => ih _ hneg hzero
        exact ⟨h.encrypted, h.sessionKey, h.sequence⟩
  | case2 messageLength hdone =>
    rw [fillRecord, if_neg hdone]
    exact Within.value _

/-- Only the fields that belong to reading change. -/
theorem Sends.read {channel : Channel} (h : Sends key sent channel) (ingressSequence : Nat)
    (messageLength : Nat) (message : Option Nat) (buffer : Nat) (record : Bytes) :
    Sends key sent { channel with
      ingressSequence := ingressSequence, messageLength := messageLength, message := message,
      buffer := buffer, record := record } :=
  ⟨h.encrypted, h.sessionKey, h.sequence⟩

theorem decryptRecord_within (envelope : Envelope) :
    (decryptRecord envelope).Within ReadsOnly (Sends key sent) := by
  unfold decryptRecord
  repeat' with_reducible first
    | apply readMessage_within
    | intro _
    | apply Within.issue
    | apply Within.value
    | apply Within.get_bind
    | apply Within.update
    | apply Within.bind
    | split
  all_goals first | trivial | exact Sends.read ‹_› _ _ _ _ _

theorem nextRecord_within : nextRecord.Within ReadsOnly (Sends key sent) := by
  unfold nextRecord
  repeat' with_reducible first
    | apply fillRecord_within
    | apply decryptRecord_within
    | intro _
    | apply Within.issue
    | apply Within.value
    | apply Within.get_bind
    | apply Within.update
    | apply Within.bind
    | split
  all_goals first | trivial | exact Sends.read ‹_› _ _ _ _ _

theorem copyMessage_within (offset size : Nat) :
    (copyMessage offset size).Within ReadsOnly (Sends key sent) := by
  unfold copyMessage
  repeat' with_reducible first
    | apply readMessage_within
    | intro _
    | apply Within.issue
    | apply Within.value
    | apply Within.get_bind
    | apply Within.update
    | apply Within.put
    | apply Within.bind
    | split
  all_goals first | trivial | exact Sends.read ‹_› _ _ _ _ _

theorem encryptedIngress_within (size : Nat) :
    (encryptedIngress size).Within ReadsOnly (Sends key sent) := by
  unfold encryptedIngress
  apply Within.get_bind
  intro channel hchannel
  split
  · exact copyMessage_within _ _
  · refine Within.bind nextRecord_within fun error => ?_
    split
    · exact Within.value _
    · exact copyMessage_within _ _

end Ingress

/-- A record is sealed for the bytes of the operation, under the counter of the channel. -/
def sealing (op : Operation) (sequence : Nat) : Monitor Call Channel Unit where
  safe _ _
    | .sgxAesGcmEncrypt _ source _ aad => op = .egress source ∧ aad = leBytes 8 sequence
    | _ => True

theorem encryptedEgress_spec {channel : Channel} {sent : Nat} {bytes : Bytes}
    (h : Sends key sent channel) :
    wp (sealing (.egress bytes) channel.egressSequence)
      (fun ret last _ => 0 ≤ ret.toInt → Sends key (sent + bytes.length) last)
      (encryptedEgress bytes) channel () := by
  have hfailed : ∀ {error : Int32}, error.toInt < 0 →
      (0 ≤ error.toInt → Sends key (sent + bytes.length) channel) := by
    intro error hneg hnonneg
    omega
  unfold encryptedEgress
  simp only [wp_bind, wp_get, wp_issue]
  refine ⟨trivial, fun xmitBuffer => ?_⟩
  cases xmitBuffer with
  | none => exact hfailed (by decide)
  | some xmitBuffer =>
    simp only [wp_bind, wp_issue]
    refine ⟨⟨rfl, rfl⟩, fun sealed => ?_⟩
    cases sealed with
    | none =>
      simp only [wp_bind, wp_issue, wp_pure]
      exact ⟨trivial, fun _ => hfailed (by decide)⟩
    | some sealed =>
      simp only [wp_bind, wp_issue, wp_ite, wp_modify, wp_pure]
      refine ⟨trivial, fun ret => ⟨trivial, fun _ => ⟨fun _ => hfailed (by decide), fun _ _ => ?_⟩⟩⟩
      refine ⟨h.encrypted, h.sessionKey, ?_⟩
      simp only [h.sequence]
      omega

theorem handle_spec {channel : Channel} {sent : Nat} (op : Operation) (h : Sends key sent channel) :
    wp (sealing op channel.egressSequence)
      (fun received last _ => 0 ≤ received.ret.toInt →
        Sends key (sent + (bytesOf op).length) last) (handle op) channel () := by
  cases op with
  | ingress size =>
    simp only [handle, channelIngress, wp_bind, wp_get, h.encrypted, ite_true]
    refine (encryptedIngress_within size).quiet ?_ (fun _ _ _ => rfl) h fun _ _ hlast _ => hlast
    intro β current c hc
    cases c with
    | sgxAesGcmEncrypt => exact absurd hc id
    | _ => trivial
  | egress bytes =>
    simp only [handle, channelEgress, wp_bind, wp_get, h.encrypted, ite_true]
    exact encryptedEgress_spec h

theorem passed_append (first second : List (Entry openChannel)) :
    passed (first ++ second) = passed first ++ passed second := List.flatMap_append

/-- Of a step, only the call itself counts. -/
theorem passed_step (step : Step openChannel) : passed step.log = bytesOf step.op := by
  have hevents : ∀ events : List (Event Call), passed (events.map Entry.host) = [] := by
    intro events
    rw [passed, List.flatMap_map]
    exact List.flatMap_eq_nil_iff.mpr fun _ _ => rfl
  have hreturned : passed (step.result.map (Entry.returned step.op)).toList = [] := by
    cases step.result with
    | none => rfl
    | some received => rfl
  have hentered : passed [Entry.entered step.op] = bytesOf step.op := by
    cases step.op with
    | ingress size => rfl
    | egress bytes => exact List.append_nil bytes
  rw [Step.log, ← List.singleton_append, List.append_assoc, passed_append, passed_append, hevents,
    hreturned, hentered, List.append_nil, List.append_nil]

theorem passed_logOf_append (steps : List (Step openChannel)) (step : Step openChannel) :
    passed (logOf (steps ++ [step])) = passed (logOf steps) ++ bytesOf step.op := by
  rw [logOf_append, passed_append, passed_step]

/-- The egress counter holds the number of bytes passed so far. -/
def Counts (key : SessionKey) (earlier : List (Step openChannel)) (channel : Channel) : Prop :=
  Sends key (passed (logOf earlier)).length channel

theorem step_counts {earlier : List (Step openChannel)} {step : Step openChannel}
    (h : Counts key earlier step.before) (hvalid : step.Valid) (hfinished : step.result.isSome)
    (hsuccess : Succeeds step) : Counts key (earlier ++ [step]) step.after := by
  obtain ⟨received, hresult⟩ := Option.isSome_iff_exists.mp hfinished
  have hexec : Exec (handle step.op) step.before step.events step.after (some received) :=
    hresult ▸ hvalid
  rw [Counts, passed_logOf_append, List.length_append]
  exact hexec.returned (handle_spec step.op h) (hsuccess received hresult)

/-- What is sealed lies in the stream of the end that seals it, where its counter says. -/
theorem produced_in_passed {init state : Channel} {steps : List (Step openChannel)}
    (trace : Trace openChannel init steps state) (hinit : Counts key [] init)
    (hsuccess : NoFailure steps) {record : SealedRecord}
    (h : record ∈ produced key (logOf steps)) :
    ∃ before after, passed (logOf steps) = before ++ record.plaintext ++ after ∧
      record.aad = leBytes 8 before.length := by
  obtain ⟨answer, hsealed⟩ := mem_produced h
  obtain ⟨step, hstep, hevent⟩ := mem_logOf_host hsealed
  obtain ⟨earlier, later, rfl⟩ := List.append_of_mem hstep
  have hmeets : Throughout (fun _ step => Succeeds step) (earlier ++ step :: later) := by
    intro before other after hsplit
    exact hsuccess other (hsplit ▸ by simp)
  have hthroughout := trace.throughout hmeets hinit fun _ _ => step_counts
  obtain ⟨hbefore, hvalid, -⟩ := hthroughout earlier step later rfl
  have hissued := Exec.issued_of_answered hvalid hevent
  obtain ⟨_, _, hop, haad⟩ := Exec.issued_safe hvalid (handle_spec step.op hbefore) hissued
  have hbytes : bytesOf step.op = record.plaintext := by rw [hop]; rfl
  have hsplit : logOf (earlier ++ step :: later) = logOf earlier ++ step.log ++ logOf later := by
    simp [logOf]
  refine ⟨passed (logOf earlier), passed (logOf later), ?_, ?_⟩
  · rw [hsplit, passed_append, passed_append, passed_step, hbytes]
  · rw [haad, hbefore.sequence]
    exact leBytes_mod 8 _

end Sender

section Receiver
variable {channel : Channel} {m : Prop}

/-- Whether every answer that fits its buffer leaves no record half read. -/
def unbroken : Monitor Call Channel Prop where
  answered m c answer := m ∧ (FitsBuffer c answer → KeepsWhole c answer)

@[simp] theorem unbroken_answered {β : Type} (c : Call β) (answer : β) :
    unbroken.answered (unbroken.issued m c) c answer =
      (m ∧ (FitsBuffer c answer → KeepsWhole c answer)) := rfl

theorem readMessage_unbroken {offset count : Nat} {post : Bytes → Channel → Prop → Prop}
    (hpost : ∀ bytes m', (m → m') → post bytes channel m') :
    wp unbroken post (readMessage offset count) channel m := by
  unfold readMessage
  simp only [wp_bind, wp_get, wp_ite, wp_issue, wp_pure, unbroken_answered]
  exact ⟨fun _ => ⟨trivial, fun past => hpost _ _ fun hm => ⟨hm, fun _ => trivial⟩⟩,
    fun _ => hpost _ _ id⟩

/-- The body of a record: an error is negative, and without one nothing was left half read. -/
theorem fillRecord_unbroken {length : Nat} (body : Allocation length) (messageLength : Nat)
    {post : Option Int32 → Channel → Prop → Prop}
    (hpost : ∀ result last m', (∀ error, result = some error → error.toInt < 0) →
      (result = none → m → m') → post result last m') :
    wp unbroken post (fillRecord body messageLength) channel m := by
  induction messageLength using @fillRecord.induct length generalizing channel m with
  | case1 messageLength hless ih =>
    rw [fillRecord, if_pos hless]
    simp only [wp_bind, wp_get, wp_issue, wp_set, wp_dite, wp_pure, wp_modify, unbroken_answered]
    refine ⟨trivial, fun answer => ?_⟩
    obtain ⟨ret, bytes⟩ := answer
    refine ⟨fun hneg => ?_, fun hneg => ⟨fun hzero => ?_, fun hzero => ?_⟩⟩
    · refine hpost _ _ _ ?_ (by simp)
      intro error herror
      cases herror
      exact int32_neg.mp hneg
    · refine hpost _ _ _ ?_ (by simp)
      intro error herror
      cases herror
      decide
    · apply ih ret hneg hzero
      intro result last m' herror hkept
      refine hpost result last m' herror fun hnone hm => hkept hnone ⟨hm, fun hfits => ?_⟩
      have hnonneg : ¬ ret.toInt < 0 := int32_neg.not.mp hneg
      have hnonzero : ¬ ret.toInt = 0 := int32_zero.not.mp hzero
      exact ⟨hfits, Or.inl (by omega)⟩
  | case2 messageLength hdone =>
    rw [fillRecord, if_neg hdone, wp_pure]
    exact hpost _ _ _ (by simp) fun _ hm => hm

theorem decryptRecord_unbroken (envelope : Envelope) {post : Option Int32 → Channel → Prop → Prop}
    (hpost : ∀ result last m', (∀ error, result = some error → error.toInt < 0) →
      (result = none → m → m') → post result last m') :
    wp unbroken post (decryptRecord envelope) channel m := by
  unfold decryptRecord
  simp only [wp_bind, wp_get]
  apply readMessage_unbroken
  intro source m' hm'
  simp only [wp_issue, wp_bind, wp_modify, wp_ite, wp_pure, unbroken_answered]
  refine ⟨trivial, fun answer => ?_⟩
  obtain ⟨success, plaintext⟩ := answer
  refine ⟨fun _ => ?_, fun hopened => ?_⟩
  · refine hpost _ _ _ ?_ (by simp)
    intro error herror
    cases herror
    decide
  · refine hpost _ _ _ (by simp) fun _ hm => ⟨hm' hm, fun _ => Or.inl ?_⟩
    simpa using hopened

theorem nextRecord_unbroken {post : Option Int32 → Channel → Prop → Prop}
    (hpost : ∀ result last m', (∀ error, result = some error → error.toInt < 0) →
      (result = none → m → m') → post result last m') :
    wp unbroken post nextRecord channel m := by
  unfold nextRecord
  simp only [wp_bind, wp_get, wp_issue, wp_ite, wp_pure, unbroken_answered]
  refine ⟨trivial, fun answer => ?_⟩
  obtain ⟨ret, header⟩ := answer
  refine ⟨fun hshort => ?_, fun _ => ⟨trivial, fun body => ?_⟩⟩
  · refine hpost _ _ _ ?_ (by simp)
    intro error herror
    cases herror
    split
    · rename_i hneg
      exact int32_neg.mp hneg
    · split
      · decide
      · decide
  · cases body with
    | none =>
      refine hpost _ _ _ ?_ (by simp)
      intro error herror
      cases herror
      decide
    | some body =>
      simp only [wp_bind, wp_modify]
      apply fillRecord_unbroken
      intro result last m' herror hkept
      cases result with
      | some error => exact hpost _ _ _ herror (by simp)
      | none =>
        apply decryptRecord_unbroken
        intro result last m'' herror' hkept'
        exact hpost result last m'' herror' fun hnone hm =>
          hkept' hnone (hkept rfl ⟨⟨hm, fun _ => trivial⟩, fun _ => trivial⟩)

theorem copyMessage_unbroken {offset size : Nat} {post : Received → Channel → Prop → Prop}
    (hpost : ∀ received last m', (m → m') → post received last m') :
    wp unbroken post (copyMessage offset size) channel m := by
  unfold copyMessage
  simp only [wp_bind, wp_get]
  apply readMessage_unbroken
  intro bytes m' hm'
  simp only [wp_modify, wp_bind, wp_ite, wp_issue, wp_set, wp_pure, unbroken_answered]
  exact ⟨fun _ => ⟨trivial, fun _ => hpost _ _ _ fun hm => ⟨hm' hm, fun _ => trivial⟩⟩,
    fun _ => hpost _ _ _ hm'⟩

open Program (Within) in
theorem encryptedEgress_within (bytes : Bytes) :
    (encryptedEgress bytes).Within (fun c => ∀ answer, KeepsWhole c answer) fun _ => True := by
  unfold encryptedEgress
  repeat' with_reducible first
    | intro _
    | apply Within.issue
    | apply Within.value
    | apply Within.get_bind
    | apply Within.update
    | apply Within.bind
    | split
  all_goals trivial

/-- A call that does not fail leaves no record half read. -/
theorem handle_unbroken (op : Operation) (hencrypted : channel.encrypted = true) :
    wp unbroken (fun received _ m' => 0 ≤ received.ret.toInt → m → m') (handle op) channel m := by
  cases op with
  | ingress size =>
    simp only [handle, channelIngress, encryptedIngress, wp_bind, wp_get, hencrypted, ite_true]
    cases channel.message with
    | some offset => exact copyMessage_unbroken fun _ _ _ hkept _ => hkept
    | none =>
      simp only [wp_bind]
      apply nextRecord_unbroken
      intro result last m' herror hkept
      cases result with
      | some error =>
        intro hnonneg
        exact absurd (herror error rfl) (not_lt.mpr hnonneg)
      | none => exact copyMessage_unbroken fun _ _ _ hkept' _ hm => hkept' (hkept rfl hm)
  | egress bytes =>
    simp only [handle, channelEgress, wp_bind, wp_get, hencrypted, ite_true]
    refine (encryptedEgress_within bytes).wp (fun _ _ _ _ _ => trivial) ?_ trivial id
      fun ret _ m' _ hkept => fun _ => hkept
    intro β c answer m' hc hkept hm
    exact ⟨hkept hm, fun _ => hc answer⟩

theorem foldl_unbroken {events : List (Event Call)} {m : Prop}
    (h : events.foldl unbroken.observe m) :
    m ∧ ∀ {β : Type} (c : Call β) (answer : β), .answered c answer ∈ events →
      FitsBuffer c answer → KeepsWhole c answer := by
  induction events generalizing m with
  | nil => exact ⟨h, (by simp)⟩
  | cons event events ih =>
    obtain ⟨hm, hevents⟩ := ih h
    cases event with
    | issued c =>
      refine ⟨hm, fun c' answer hmem => hevents c' answer ?_⟩
      simpa using hmem
    | answered c answer =>
      refine ⟨hm.1, fun c' answer' hmem => ?_⟩
      rcases List.mem_cons.mp hmem with hmem | hmem
      · cases hmem
        exact hm.2
      · exact hevents c' answer' hmem

variable {key : SessionKey} {init state : Channel} {steps : List (Step openChannel)}

/-- Without a failed call no record was left half read. -/
theorem everyRecordWhole (run : Run openChannel init steps state) (hinit : Counts key [] init)
    (hsuccess : NoFailure steps) (hfits : EveryReadFits (logOf steps)) :
    EveryRecordWhole (logOf steps) := by
  intro β c answer hmem
  obtain ⟨step, hstep, hevent⟩ := mem_logOf_host hmem
  obtain ⟨earlier, later, rfl⟩ := List.append_of_mem hstep
  have hmeets : Throughout (fun _ step => Succeeds step) (earlier ++ step :: later) := by
    intro before other after hsplit
    exact hsuccess other (hsplit ▸ by simp)
  obtain ⟨hbefore, hvalid, -⟩ :=
    (run.throughout hmeets hinit fun _ _ => step_counts).2 earlier step later rfl
  obtain ⟨received, hresult⟩ := Option.isSome_iff_exists.mp (run.finished step hstep)
  have hexec : Exec (handle step.op) step.before step.events step.after (some received) :=
    hresult ▸ hvalid
  have hwhole := hexec.returned (handle_unbroken (m := True) step.op hbefore.encrypted)
    (hsuccess step hstep received hresult) trivial
  exact (foldl_unbroken hwhole).2 c answer hevent (hfits c answer hmem)

end Receiver

section Prefix
variable {key : SessionKey}

/-- What stands in a stream behind an initial part extends it. -/
theorem isPrefix_append {stream opened before plaintext after : Bytes} (hopened : opened <+: stream)
    (hstream : stream = before ++ plaintext ++ after) (hlength : before.length = opened.length) :
    opened ++ plaintext <+: stream := by
  obtain ⟨rest, hrest⟩ := hopened
  have hsame : opened = before := by
    rw [hstream, List.append_assoc] at hrest
    exact (List.append_inj hrest hlength.symm).1
  rw [hsame, hstream]
  exact List.prefix_append _ _

theorem leBytes_injective {a b : Nat} (ha : a < 2 ^ 64) (hb : b < 2 ^ 64)
    (h : leBytes 8 a = leBytes 8 b) : a = b := by
  have hvalue := congrArg leValue h
  rw [leValue_leBytes, leValue_leBytes] at hvalue
  omega

/-- A stream that holds every record at the place its associated data says holds what an
end has opened. -/
theorem opened_isPrefix {stream : Bytes} (hlength : stream.length < 2 ^ 64)
    {log : List (Entry openChannel)} {m : RecordAuthenticity.Observed}
    (hplaced : ∀ record ∈ opened key log, record.plaintext ≠ [] →
      ∃ before after, stream = before ++ record.plaintext ++ after ∧
        record.aad = leBytes 8 before.length) (hm : m.opened <+: stream) :
    (log.foldl (RecordAuthenticity.observer key).observe m).opened <+: stream := by
  induction log generalizing m with
  | nil => exact hm
  | cons entry log ih =>
    have hlater : ∀ record ∈ opened key log, record.plaintext ≠ [] →
        ∃ before after, stream = before ++ record.plaintext ++ after ∧
          record.aad = leBytes 8 before.length := by
      intro record hrecord
      refine hplaced record ?_
      rw [← List.singleton_append, opened_append]
      exact List.mem_append_right _ hrecord
    refine ih hlater ?_
    cases entry with
    | entered op => exact hm
    | returned op ret => exact hm
    | host event =>
      cases event with
      | issued c => exact hm
      | answered c answer =>
        cases c with
        | sgxAesGcmDecrypt usedKey source nonce aad tag =>
          obtain ⟨success, plaintext⟩ := answer
          change RecordAuthenticity.openRecord key m (.sgxAesGcmDecrypt usedKey source nonce aad tag)
            (success, plaintext) <+: stream
          simp only [RecordAuthenticity.openRecord]
          split
          · rename_i hopened
            obtain ⟨rfl, rfl, haad, -⟩ := hopened
            by_cases hempty : plaintext.val = []
            · rwa [hempty, List.append_nil]
            · obtain ⟨before, after, hstream, hbefore⟩ := hplaced _
                (mem_opened List.mem_cons_self) hempty
              refine isPrefix_append hm hstream (leBytes_injective ?_ ?_ (hbefore.symm.trans haad))
              · have hle := congrArg List.length hstream
                rw [List.length_append, List.length_append] at hle
                omega
              · exact hm.length_le.trans_lt hlength
          · exact hm
        | _ => exact hm

theorem delivered_append (first second : List (Entry openChannel)) :
    delivered (first ++ second) = delivered first ++ delivered second := List.flatMap_append

theorem delivered_observed (log : List (Entry openChannel)) (m : RecordAuthenticity.Observed) :
    (log.foldl (RecordAuthenticity.observer key).observe m).delivered =
      m.delivered ++ delivered log := by
  induction log generalizing m with
  | nil => simp [delivered]
  | cons entry log ih =>
    rw [List.foldl_cons, ih, ← List.singleton_append, delivered_append, ← List.append_assoc]
    rcases entry with op | (c | ⟨c, answer⟩) | ⟨op, received⟩
    · rw [show delivered [Entry.entered op] = [] from rfl, List.append_nil]
      rfl
    · rw [show delivered [Entry.host (.issued c)] = [] from rfl, List.append_nil]
      rfl
    · rw [show delivered [Entry.host (.answered c answer)] = [] from rfl, List.append_nil]
      rfl
    · rw [show delivered [Entry.returned op received] = received.bytes ++ [] from rfl,
        List.append_nil]
      rfl

end Prefix

section Ends
variable {key : SessionKey} {struct : Allocation sizeofChannel} {connection id : Nat}
  {steps : List (Step openChannel)} {state : Channel}

theorem counts_fresh : Counts key [] (freshChannel struct connection id key) := ⟨rfl, rfl, rfl⟩

theorem synced_fresh :
    RecordAuthenticity.Synced key (freshChannel struct connection id key) ⟨[], 0, [], True⟩ :=
  ⟨⟨rfl, rfl, rfl⟩, (fun _ h => by cases h), rfl⟩

/-- One direction, for an end that is not inside a call. -/
theorem delivered_isPrefix_of_run {stream : Bytes} (hlength : stream.length < 2 ^ 64)
    (run : Run openChannel (freshChannel struct connection id key) steps state)
    (hsuccess : NoFailure steps) (hfits : EveryReadFits (logOf steps))
    (hplaced : ∀ record ∈ opened key (logOf steps), record.plaintext ≠ [] →
      ∃ before after, stream = before ++ record.plaintext ++ after ∧
        record.aad = leBytes 8 before.length) :
    delivered (logOf steps) <+: stream := by
  have hwhole : EveryRecordWhole (logOf steps) :=
    everyRecordWhole run counts_fresh hsuccess hfits
  have hsynced := RecordAuthenticity.run_synced run synced_fresh
    (RecordAuthenticity.foldl_whole key _ _ trivial hwhole)
  have hpending := hsynced.pending
  rw [delivered_observed, List.nil_append] at hpending
  have hdelivered : delivered (logOf steps) <+:
      ((logOf steps).foldl (RecordAuthenticity.observer key).observe ⟨[], 0, [], True⟩).opened :=
    ⟨_, hpending⟩
  exact hdelivered.trans (opened_isPrefix hlength hplaced List.nil_prefix)

/-- A call that has not returned has delivered nothing. -/
theorem delivered_waiting {step : Step openChannel} (hwaiting : step.result = none) :
    delivered step.log = [] := by
  refine List.flatMap_eq_nil_iff.mpr fun entry hentry => ?_
  simp only [Step.log, hwaiting, Option.map_none, Option.toList_none, List.append_nil,
    List.mem_cons, List.mem_map] at hentry
  rcases hentry with rfl | ⟨event, -, rfl⟩
  · rfl
  · rfl

theorem delivered_isPrefix {stream : Bytes} (hlength : stream.length < 2 ^ 64)
    (trace : Trace openChannel (freshChannel struct connection id key) steps state)
    (hsuccess : NoFailure steps) (hfits : EveryReadFits (logOf steps))
    (hplaced : ∀ record ∈ opened key (logOf steps), record.plaintext ≠ [] →
      ∃ before after, stream = before ++ record.plaintext ++ after ∧
        record.aad = leBytes 8 before.length) :
    delivered (logOf steps) <+: stream := by
  cases trace with
  | resting run => exact delivered_isPrefix_of_run hlength run hsuccess hfits hplaced
  | @inside steps step run hvalid hwaiting =>
    have hmem : ∀ {entry}, entry ∈ logOf steps → entry ∈ logOf (steps ++ [step]) := by
      intro entry hentry
      rw [logOf_append]
      exact List.mem_append_left _ hentry
    have hsame : delivered (logOf (steps ++ [step])) = delivered (logOf steps) := by
      rw [logOf_append, delivered_append, delivered_waiting hwaiting, List.append_nil]
    rw [hsame]
    refine delivered_isPrefix_of_run hlength run
      (fun other hother => hsuccess other (List.mem_append_left _ hother))
      (fun c answer h => hfits c answer (hmem h)) ?_
    intro record hrecord
    refine hplaced record ?_
    rw [logOf_append, opened_append]
    exact List.mem_append_left _ hrecord

/-- One end of a channel at some moment: no call has failed, and the network has kept to the
buffers it was given. -/
structure End (key : SessionKey) where
  struct : Allocation sizeofChannel
  connection : Nat
  id : Nat
  steps : List (Step openChannel)
  state : Channel
  trace : Trace openChannel (freshChannel struct connection id key) steps state
  success : NoFailure steps
  fits : EveryReadFits (logOf steps)

def End.log (channelEnd : End key) : List (Entry openChannel) := logOf channelEnd.steps

/-- Either end has delivered an initial part of what the other has sent. -/
def DeliversOther (a b : End key) : Prop :=
  delivered a.log <+: passed b.log ∧ delivered b.log <+: passed a.log

theorem delivered_of_not_reflected {a b : End key} (hcipher : IdealCipher key b.log a.log)
    (hreflected : NotReflected key b.log) (hlength : (passed a.log).length < 2 ^ 64) :
    delivered b.log <+: passed a.log := by
  refine delivered_isPrefix hlength b.trace b.success b.fits fun record hrecord hempty => ?_
  rcases hcipher record hrecord with hown | hother
  · exact absurd hown (hreflected record hrecord hempty)
  · exact produced_in_passed a.trace counts_fresh a.success hother

/-- Where no end opens a non-empty record of its own, either delivers what the other sent. -/
theorem delivers_other_stream (a b : End key) (ha : IdealCipher key a.log b.log)
    (hb : IdealCipher key b.log a.log) (hreflectedA : NotReflected key a.log)
    (hreflectedB : NotReflected key b.log) (hlengthA : (passed a.log).length < 2 ^ 64)
    (hlengthB : (passed b.log).length < 2 ^ 64) : DeliversOther a b :=
  ⟨delivered_of_not_reflected ha hreflectedA hlengthB,
    delivered_of_not_reflected hb hreflectedB hlengthA⟩

end Ends

section Examples
open RecordAuthenticity (zeroKey zeroStruct)

def shortBytes : Bytes := [1, 2, 3]

/-- A network on which everything sent goes through and one record of three bytes arrives. The
cipher is the identity. -/
def wire {β : Type} (_ : Nat) : Call β → Option β
  | .ocallIngress _ target size =>
    match target with
    | .envelope =>
      let envelope : Envelope := ⟨3, FixedBytes.zero 12, FixedBytes.zero 16⟩
      if size = 32 then some (32, FixedBytes.fit size envelope.encode) else none
    | .record _ => if size = 3 then some (3, FixedBytes.fit size shortBytes) else none
    | .caller => none
  | .ocallEgress _ bytes => some (Int32.ofNat bytes.length)
  | .malloc size =>
    some (if fits : size ≤ heapMaxSize then some ⟨0, FixedBytes.zero size, fits⟩ else none)
  | .free _ => some ()
  | .sgxAesGcmDecrypt _ source _ _ _ => some (true, .ofBytes source)
  | .sgxAesGcmEncrypt _ source _ _ => some (some (.ofBytes source, FixedBytes.zero 16))
  | _ => none

theorem wire_fits {β : Type} {time : Nat} {c : Call β} {answer : β}
    (h : wire time c = some answer) : FitsBuffer c answer := by
  cases c with
  | ocallIngress connection target size =>
    cases target with
    | caller => cases h
    | envelope =>
      simp only [wire, Option.ite_none_right_eq_some] at h
      obtain ⟨rfl, h⟩ := h
      cases h
      exact (by decide : (32 : Int32).toInt ≤ (32 : Nat))
    | record offset =>
      simp only [wire, Option.ite_none_right_eq_some] at h
      obtain ⟨rfl, h⟩ := h
      cases h
      exact (by decide : (3 : Int32).toInt ≤ (3 : Nat))
  | _ => trivial

def succeeds (step : Step openChannel) : Bool :=
  let result : Option Received := step.result
  result.all fun received => decide (0 ≤ received.ret.toInt)

theorem noFailure_of_all {steps : List (Step openChannel)} (h : steps.all succeeds) :
    NoFailure steps := by
  intro step hstep received hresult
  have hstep : succeeds step = true := List.all_eq_true.mp h step hstep
  have hresult : (step.result : Option Received) = some received := hresult
  simpa [succeeds, hresult] using hstep

/-- The calls of an end on this network. -/
def wireSteps (ops : List Operation) : List (Step openChannel) :=
  playRun openChannel wire 0 (freshChannel zeroStruct 0 1 zeroKey) ops

def wireEnd (ops : List Operation)
    (finished : (wireSteps ops).all fun step => step.result.isSome)
    (success : (wireSteps ops).all succeeds) : End zeroKey where
  struct := zeroStruct
  connection := 0
  id := 1
  steps := wireSteps ops
  state := _
  trace := .resting (run_playRun openChannel wire _ ops finished)
  success := noFailure_of_all success
  fits _ _ h :=
    have ⟨_, hanswer⟩ := playRun_answered h
    wire_fits hanswer

/-- Sends three bytes. -/
def sender : End zeroKey := wireEnd [.egress shortBytes] (by decide +kernel) (by decide +kernel)

/-- Reads them with two calls. -/
def receiver : End zeroKey :=
  wireEnd [.ingress 2, .ingress 5] (by decide +kernel) (by decide +kernel)

theorem delivers_other_stream_once :
    DeliversOther sender receiver ∧ delivered receiver.log = shortBytes := by
  refine ⟨delivers_other_stream sender receiver ?_ ?_ ?_ ?_ ?_ ?_, by decide +kernel⟩
  · unfold IdealCipher
    decide +kernel
  · unfold IdealCipher
    decide +kernel
  · unfold NotReflected
    decide +kernel
  · unfold NotReflected
    decide +kernel
  · decide +kernel
  · decide +kernel

/-- Sends three bytes, and reads what the network sends back. -/
def mirrored : End zeroKey :=
  wireEnd [.egress shortBytes, .ingress 3] (by decide +kernel) (by decide +kernel)

def idle : End zeroKey := wireEnd [] (by decide +kernel) (by decide +kernel)

theorem own_record_delivered : ∃ a b : End zeroKey, IdealCipher zeroKey a.log b.log ∧
    IdealCipher zeroKey b.log a.log ∧ (passed a.log).length < 2 ^ 64 ∧
    (passed b.log).length < 2 ^ 64 ∧ ¬ DeliversOther a b := by
  refine ⟨mirrored, idle, ?_, ?_, by decide +kernel, by decide +kernel, fun h => ?_⟩
  · unfold IdealCipher
    decide +kernel
  · unfold IdealCipher
    decide +kernel
  · have hdelivered : delivered mirrored.log = shortBytes := by decide +kernel
    have hpassed : passed idle.log = [] := by decide +kernel
    have hprefix := h.1
    rw [hdelivered, hpassed] at hprefix
    cases List.prefix_nil.mp hprefix

end Examples

end Auntie.Guarantees.StreamIntegrity
