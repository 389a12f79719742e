import Auntie.Interaction.Contract
import Auntie.Guarantees.RecordAuthenticity

/-!
# The record buffer of a channel

`encrypted_ingress` adds what the host returns to `message_length` and never compares it with
what was asked for, and `channel_teardown` frees `message`, which has moved on when a part of
the record has been consumed. As long as no read of a record is answered with more than was
asked for, the unread bytes of a record lie in its allocation, all of it is decrypted, and
nothing is read past it.
-/

namespace Auntie.Guarantees.RecordBuffer
open Auntie.Source Auntie.Source.Channels Auntie.Interaction
open RecordAuthenticity (zeroChannel recordHost wholeHost)

section Statement

/-- What the calls of a channel show of its memory: the live allocations, each by its address
and size and the latest first, the length the last envelope declared, and the number of bytes
decrypted. -/
structure Memory where
  blocks : List (Nat × Nat)
  envelope : Nat := 0
  decrypted : Nat := 0

namespace Memory

def allocate (memory : Memory) (address size : Nat) : Memory :=
  { memory with blocks := (address, size) :: memory.blocks }

def release (memory : Memory) (address : Nat) : Memory :=
  { memory with blocks := memory.blocks.eraseP fun block => block.1 == address }

def declare (memory : Memory) (target : Target) (bytes : Bytes) : Memory :=
  match target with
  | .envelope => { memory with envelope := leValue (bytes.take 4) }
  | .caller | .record _ => memory

@[simp] def answered {β : Type} (memory : Memory) : Call β → β → Memory
  | .ocallIngress _ target _, (_, bytes) => memory.declare target bytes.val
  | .malloc size, body => body.elim memory fun body => memory.allocate body.address size
  | .free address, _ => memory.release address
  | .sgxAesGcmDecrypt _ source _ _ _, (success, _) =>
    if success then { memory with decrypted := memory.decrypted + source.length } else memory
  | _, _ => memory

end Memory

/-- What a call finds: the host writes inside the record, all of the record is decrypted,
nothing is read past an allocation, and what is freed is live. -/
@[simp] def Sound (memory : Memory) {β : Type} : Call β → Prop
  | .ocallIngress _ (.record offset) size => offset + size ≤ memory.envelope
  | .sgxAesGcmDecrypt _ source _ _ _ => source.length = memory.envelope
  | .readPast _ _ => False
  | .free address => ∃ size, (address, size) ∈ memory.blocks
  | _ => True

/-- The unread bytes lie in the allocation of the record, which is live and of the length that
its envelope declared, and the sequence number is the number of bytes decrypted. -/
structure Kept (channel : Channel) (memory : Memory) : Prop where
  inside : ∀ offset, channel.message = some offset →
    (channel.buffer, memory.envelope) ∈ memory.blocks ∧
      offset + channel.messageLength ≤ memory.envelope
  sequence : channel.ingressSequence = memory.decrypted % 2 ^ 64

/-- The read of a record is answered with no more than was asked for. -/
def RecordFits {β : Type} : Call β → β → Prop
  | .ocallIngress _ target size, (ret, _) =>
    match target with
    | .record _ => ret.toInt ≤ size
    | .caller | .envelope => True
  | _, _ => True

def buffers : Contract Call Channel Memory where
  answered memory c answer := memory.answered c answer
  safe channel memory c := Kept channel memory ∧ Sound memory c
  assumes _ c answer := RecordFits c answer

/-- The channel as it is created, encrypted or not. -/
structure Fresh (channel : Channel) : Prop where
  message : channel.message = none
  sequence : channel.ingressSequence = 0

/-- Only the channel itself is allocated. -/
def start (channel : Channel) : Memory := ⟨[(channel.address, sizeofChannel)], 0, 0⟩

def memoryOf (init : Channel) (steps : List (Step openChannel)) : Memory :=
  (eventsOf steps).foldl buffers.observe (start init)

def freed : Event Call → Option Nat
  | .issued (.free address) => some address
  | _ => none

/-- A teardown frees the allocation of the record, if there is one, and the channel. -/
def TornDownAtBase (channel : Channel) : Prop :=
  ∀ (events : List (Event Call)) (last : Channel),
    Exec channelTeardown channel events last (some ()) →
      events.filterMap freed = (channel.message.map fun _ => channel.buffer).toList ++
        [channel.address]

end Statement

section Invariant
variable {channel : Channel} {memory : Memory}

/-- Between two calls exactly the record and the channel are allocated. -/
structure Held (channel : Channel) (memory : Memory) : Prop where
  blocks : memory.blocks = (channel.message.map fun _ => (channel.buffer, memory.envelope)).toList ++
    [(channel.address, sizeofChannel)]
  record : ∀ offset, channel.message = some offset → channel.record.length = memory.envelope
  inside : ∀ offset, channel.message = some offset →
    offset + channel.messageLength ≤ memory.envelope
  sequence : channel.ingressSequence = memory.decrypted % 2 ^ 64

theorem Held.kept (h : Held channel memory) : Kept channel memory where
  inside offset hmessage := by
    have hblocks := h.blocks
    rw [hmessage] at hblocks
    exact ⟨by simp [hblocks], h.inside offset hmessage⟩
  sequence := h.sequence

theorem Fresh.held (h : Fresh channel) : Held channel (start channel) where
  blocks := by simp [start, h.message]
  record offset hmessage := by simp [h.message] at hmessage
  inside offset hmessage := by simp [h.message] at hmessage
  sequence := h.sequence

/-- Another allocation changes nothing for the record. -/
theorem Kept.allocate (h : Kept channel memory) (address size : Nat) :
    Kept channel (memory.allocate address size) where
  inside offset hmessage :=
    ⟨List.mem_cons_of_mem _ (h.inside offset hmessage).1, (h.inside offset hmessage).2⟩
  sequence := h.sequence

theorem release_allocate (memory : Memory) (address size : Nat) :
    (memory.allocate address size).release address = memory := by
  simp [Memory.allocate, Memory.release]

theorem wp_buffers_issue {β : Type} {c : Call β} {post : β → Channel → Memory → Prop} :
    buffers.wp post (issue c : Code β) channel memory ↔
      (Kept channel memory ∧ Sound memory c) ∧
        ∀ answer, RecordFits c answer → post answer channel (memory.answered c answer) :=
  Iff.rfl

end Invariant

section Ingress
variable {channel : Channel} {memory : Memory}

theorem readMessage_spec {offset count : Nat} {post : Bytes → Channel → Memory → Prop}
    (hinside : offset + count ≤ channel.record.length)
    (hpost : ∀ bytes, bytes.length = count → post bytes channel memory) :
    buffers.wp post (readMessage offset count) channel memory := by
  have hlength : ((channel.record.drop offset).take count).length = count := by
    rw [List.length_take, List.length_drop]
    omega
  simp only [readMessage, Contract.wp_bind, Contract.wp_get, Contract.wp_ite, Contract.wp_pure]
  constructor
  · intro hshort
    omega
  · exact fun _ => hpost _ hlength

/-- Another part of the body has arrived. -/
theorem Held.filled (h : Held channel memory) (hmessage : channel.message = some 0) {record : Bytes}
    {messageLength : Nat} (hrecord : record.length = channel.record.length)
    (hlength : messageLength ≤ memory.envelope) :
    Held { channel with record := record, messageLength := messageLength } memory where
  blocks := h.blocks
  record _ _ := hrecord.trans (h.record 0 hmessage)
  inside offset hoffset := by
    obtain rfl : 0 = offset := Option.some.inj (hmessage.symm.trans hoffset)
    simpa using hlength
  sequence := h.sequence

/-- By induction as the loop is defined: the body is filled from its start. -/
theorem fillRecord_spec {length : Nat} (body : Allocation length) (messageLength : Nat)
    (hheld : Held channel memory) (hmessage : channel.message = some 0)
    (hlength : channel.messageLength = messageLength) (henvelope : memory.envelope = length)
    {post : Option Int32 → Channel → Memory → Prop}
    (hpost : ∀ result last, Held last memory → last.message = some 0 →
      (result = none → last.messageLength = length) → post result last memory) :
    buffers.wp post (fillRecord body messageLength) channel memory := by
  have hrecord := hheld.record 0 hmessage
  induction messageLength using @fillRecord.induct length generalizing channel with
  | case1 messageLength hless ih =>
    rw [fillRecord, if_pos hless]
    simp only [Contract.wp_bind, Contract.wp_get, wp_buffers_issue, Contract.wp_set,
      Contract.wp_dite, Contract.wp_pure, Contract.wp_modify, Sound, Memory.answered, Memory.declare]
    refine ⟨⟨hheld.kept, by omega⟩, fun answer hfits => ?_⟩
    obtain ⟨ret, bytes⟩ := answer
    have hfits : ret.toInt ≤ (length - messageLength : Nat) := hfits
    have hfilled : (channel.record.take messageLength ++ bytes.val).length = channel.record.length := by
      rw [List.length_append, List.length_take, bytes.property]
      omega
    have hstill : Held { channel with record := channel.record.take messageLength ++ bytes.val } memory :=
      hheld.filled hmessage hfilled (by omega)
    refine ⟨fun hneg => ?_, fun hneg => ⟨fun hzero => ?_, fun hzero => ?_⟩⟩
    · exact hpost _ _ hstill hmessage (by simp)
    · exact hpost _ _ hstill hmessage (by simp)
    · have hmore : messageLength + ret.toInt.toNat ≤ memory.envelope := by omega
      apply ih ret hneg hzero
      · exact hheld.filled hmessage hfilled hmore
      · exact hmessage
      · rfl
      · exact hfilled.trans hrecord
  | case2 messageLength hdone =>
    rw [fillRecord, if_neg hdone]
    have hinside := hheld.inside 0 hmessage
    exact hpost none channel hheld hmessage fun _ => by omega

/-- The record is decrypted in place. -/
theorem Held.decrypted (h : Held channel memory) (hmessage : channel.message = some 0)
    {plaintext : Bytes} (hlength : plaintext.length = memory.envelope) :
    Held { channel with record := plaintext.take channel.record.length } memory where
  blocks := h.blocks
  record _ _ := by simp [hlength, h.record 0 hmessage]
  inside := h.inside
  sequence := h.sequence

theorem decryptRecord_spec (envelope : Envelope) (hheld : Held channel memory)
    (hmessage : channel.message = some 0) (hlength : channel.messageLength = envelope.length)
    (henvelope : memory.envelope = envelope.length) :
    buffers.wp (fun _ last m => Held last m ∧ last.message = some 0) (decryptRecord envelope) channel
      memory := by
  have hrecord := hheld.record 0 hmessage
  simp only [decryptRecord, Contract.wp_bind, Contract.wp_get]
  apply readMessage_spec (by omega)
  intro source hsource
  simp only [Contract.wp_bind, wp_buffers_issue, Contract.wp_modify, Contract.wp_ite,
    Contract.wp_pure, Sound, Memory.answered]
  refine ⟨⟨hheld.kept, by omega⟩, fun answer _ => ?_⟩
  obtain ⟨success, plaintext⟩ := answer
  have hplaintext : plaintext.val.length = memory.envelope := by
    rw [plaintext.property]
    omega
  have hdecrypted := hheld.decrypted hmessage hplaintext
  constructor
  · intro hfailed
    have hnone : success = false := by simpa using hfailed
    rw [hnone]
    exact ⟨hdecrypted, hmessage⟩
  · intro hopened
    have hsome : success = true := by simpa using hopened
    rw [hsome]
    refine ⟨⟨hdecrypted.blocks, hdecrypted.record, hdecrypted.inside, ?_⟩, hmessage⟩
    have hsequence := hheld.sequence
    simp only [if_true]
    omega

/-- The allocation of a record that has been announced. -/
theorem Held.begun (h : Held channel memory) (hmessage : channel.message = none) {length : Nat}
    (body : Allocation length) (henvelope : memory.envelope = length) :
    Held { channel with
        buffer := body.address, record := body.contents.val, message := some 0, messageLength := 0 }
      (memory.allocate body.address length) where
  blocks := by
    have hblocks := h.blocks
    rw [hmessage] at hblocks
    simp [Memory.allocate, hblocks, henvelope]
  record _ _ := by simp [Memory.allocate, body.contents.property, henvelope]
  inside offset hoffset := by
    obtain rfl : 0 = offset := Option.some.inj hoffset
    exact Nat.zero_le _
  sequence := h.sequence

/-- Without a record the length of the envelope does not matter. -/
theorem Held.declared (h : Held channel memory) (hmessage : channel.message = none) (target : Target)
    (bytes : Bytes) : Held channel (memory.declare target bytes) := by
  cases target with
  | envelope =>
    refine ⟨?_, ?_, ?_, h.sequence⟩
    · simpa [Memory.declare, hmessage] using h.blocks
    · simp [hmessage]
    · simp [hmessage]
  | _ => exact h

theorem nextRecord_spec (hheld : Held channel memory) (hmessage : channel.message = none) :
    buffers.wp (fun result last m => Held last m ∧ (result = none → last.message = some 0)) nextRecord
      channel memory := by
  simp only [nextRecord, Contract.wp_bind, Contract.wp_get, wp_buffers_issue, Contract.wp_ite,
    Contract.wp_pure, Sound, Memory.answered]
  refine ⟨⟨hheld.kept, trivial⟩, fun answer _ => ?_⟩
  obtain ⟨ret, header⟩ := answer
  have hdeclared := hheld.declared hmessage .envelope header.val
  refine ⟨fun _ => ⟨hdeclared, by simp⟩, fun _ => ⟨⟨hdeclared.kept, trivial⟩, fun body _ => ?_⟩⟩
  cases body with
  | none => exact ⟨hdeclared, by simp⟩
  | some body =>
    have henvelope : (memory.declare .envelope header.val).envelope = (Envelope.parse header).length := by
      simp [Memory.declare, Envelope.parse, FixedBytes.slice]
    have hbegun := hdeclared.begun hmessage body henvelope
    simp only [Contract.wp_bind, Contract.wp_modify]
    apply fillRecord_spec body 0 hbegun rfl rfl henvelope
    intro result last hlast hstart hwhole
    cases result with
    | some error => exact ⟨hlast, by simp⟩
    | none =>
      refine Contract.wp_mono ?_ (decryptRecord_spec _ hlast hstart (hwhole rfl) henvelope)
      rintro result final m ⟨hfinal, hmessage⟩
      exact ⟨hfinal, fun _ => hmessage⟩

/-- Some of the record has been consumed. -/
theorem Held.consumed (h : Held channel memory) {offset moved : Nat}
    (hmessage : channel.message = some offset) (hmoved : moved ≤ channel.messageLength) :
    Held { channel with
        message := some (offset + moved), messageLength := channel.messageLength - moved }
      memory where
  blocks := by simpa [hmessage] using h.blocks
  record _ _ := h.record offset hmessage
  inside after hafter := by
    obtain rfl : offset + moved = after := Option.some.inj hafter
    have hinside := h.inside offset hmessage
    simp only
    omega
  sequence := h.sequence

/-- All of the record has been consumed, and its allocation is released. -/
theorem Held.released (h : Held channel memory) {offset : Nat}
    (hmessage : channel.message = some offset) :
    Held { channel with message := none } (memory.release channel.buffer) where
  blocks := by
    have hblocks := h.blocks
    rw [hmessage] at hblocks
    simp [Memory.release, hblocks]
  record := by simp
  inside := by simp
  sequence := h.sequence

theorem copyMessage_spec {offset size : Nat} (hheld : Held channel memory)
    (hmessage : channel.message = some offset) :
    buffers.wp (fun _ last m => Held last m) (copyMessage offset size) channel memory := by
  unfold copyMessage
  simp only [Contract.wp_bind, Contract.wp_get]
  generalize hmoved : (if channel.messageLength > size then size else channel.messageLength) = moved
  have hle : moved ≤ channel.messageLength := by
    rw [← hmoved]
    split <;> omega
  have hinside := hheld.inside offset hmessage
  have hrecord := hheld.record offset hmessage
  have hconsumed := hheld.consumed hmessage hle
  apply readMessage_spec (by omega)
  intro bytes _
  simp only [Contract.wp_modify, Contract.wp_bind, Contract.wp_ite, wp_buffers_issue,
    Contract.wp_set, Contract.wp_pure, Sound, Memory.answered]
  constructor
  · intro hdone
    refine ⟨⟨hconsumed.kept, memory.envelope, ?_⟩, fun _ _ => hconsumed.released rfl⟩
    exact (hconsumed.kept.inside _ rfl).1
  · exact fun _ => hconsumed

theorem channelIngress_spec (size : Nat) (hheld : Held channel memory) :
    buffers.wp (fun _ last m => Held last m) (channelIngress size) channel memory := by
  simp only [channelIngress, Contract.wp_bind, Contract.wp_get, Contract.wp_ite]
  constructor
  · intro _
    simp only [encryptedIngress, Contract.wp_bind, Contract.wp_get]
    cases hmessage : channel.message with
    | some offset => exact copyMessage_spec hheld hmessage
    | none =>
      rw [Contract.wp_bind]
      refine Contract.wp_mono ?_ (nextRecord_spec hheld hmessage)
      rintro result last m ⟨hlast, hstart⟩
      cases result with
      | some error => exact hlast
      | none => exact copyMessage_spec hlast (hstart rfl)
  · intro _
    simp only [plaintextIngress, Contract.wp_bind, Contract.wp_get, wp_buffers_issue,
      Contract.wp_pure, Sound, Memory.answered]
    exact ⟨⟨hheld.kept, trivial⟩, fun _ _ => hheld⟩

end Ingress

section Egress
variable {channel : Channel} {memory : Memory}

/-- The transmit buffer is allocated and freed by the same call. -/
theorem channelEgress_spec (bytes : Bytes) (hheld : Held channel memory) :
    buffers.wp (fun _ last m => Held last m) (channelEgress bytes) channel memory := by
  simp only [channelEgress, Contract.wp_bind, Contract.wp_get, Contract.wp_ite]
  constructor
  · intro _
    simp only [encryptedEgress, Contract.wp_bind, Contract.wp_get, wp_buffers_issue, Sound,
      Memory.answered]
    refine ⟨⟨hheld.kept, trivial⟩, fun xmitBuffer _ => ?_⟩
    cases xmitBuffer with
    | none => exact hheld
    | some xmitBuffer =>
      have hkept := hheld.kept.allocate xmitBuffer.address (sizeofEnvelope + bytes.length)
      have hlive : ∃ size, (xmitBuffer.address, size) ∈
          (memory.allocate xmitBuffer.address (sizeofEnvelope + bytes.length)).blocks :=
        ⟨_, List.mem_cons_self⟩
      have hgone := release_allocate memory xmitBuffer.address (sizeofEnvelope + bytes.length)
      simp only [Contract.wp_bind, wp_buffers_issue, Sound, Memory.answered, Option.elim_some]
      refine ⟨⟨hkept, trivial⟩, fun sealed _ => ?_⟩
      cases sealed with
      | none =>
        simp only [Contract.wp_bind, wp_buffers_issue, Contract.wp_pure, Sound, Memory.answered,
          hgone]
        exact ⟨⟨hkept, hlive⟩, fun _ _ => hheld⟩
      | some sealed =>
        simp only [Contract.wp_bind, wp_buffers_issue, Contract.wp_ite, Contract.wp_modify,
          Contract.wp_pure, Sound, Memory.answered, hgone]
        refine ⟨⟨hkept, trivial⟩, fun ret _ => ⟨⟨hkept, hlive⟩, fun _ _ => ⟨fun _ => hheld,
          fun _ => ?_⟩⟩⟩
        exact ⟨hheld.blocks, hheld.record, hheld.inside, hheld.sequence⟩
  · intro _
    simp only [plaintextEgress, Contract.wp_bind, Contract.wp_get, wp_buffers_issue, Sound,
      Memory.answered]
    exact ⟨⟨hheld.kept, trivial⟩, fun _ _ => hheld⟩

theorem handle_spec (op : Operation) (hheld : Held channel memory) :
    buffers.wp (fun _ last m => Held last m) (handle op) channel memory := by
  cases op with
  | ingress size => exact channelIngress_spec size hheld
  | egress bytes =>
    rw [handle, Contract.wp_bind]
    exact channelEgress_spec bytes hheld

end Egress

section Teardown
variable {channel : Channel}

/-- A teardown frees what `message` points to. -/
theorem freed_of_teardown {last : Channel} {events : List (Event Call)}
    (hexec : Exec channelTeardown channel events last (some ())) :
    events.filterMap freed = (channel.message.map fun offset => channel.buffer + offset).toList ++
      [channel.address] := by
  have hspec : wp tape (fun _ _ events => events.filterMap freed =
      (channel.message.map fun offset => channel.buffer + offset).toList ++ [channel.address])
      channelTeardown channel [] := by
    simp only [channelTeardown, wp_bind, wp_get, wp_tape_issue]
    intro _
    cases channel.message with
    | none =>
      rw [wp_tape_issue]
      exact fun _ => rfl
    | some offset =>
      simp only [wp_bind, wp_tape_issue]
      exact fun _ _ => rfl
  exact hexec.taped hspec

/-- A host on which a teardown goes through. -/
def teardownHost {β : Type} (_ : Nat) : Call β → Option β
  | .ocallDropConnection _ => some 0
  | .free _ => some ()
  | _ => none

theorem tornDownAtBase_iff :
    TornDownAtBase channel ↔ ∀ offset, channel.message = some offset → offset = 0 := by
  constructor
  · intro hbase offset hmessage
    have hexec := exec_play teardownHost 0 channelTeardown channel
    have hresult : (play teardownHost 0 channelTeardown channel).2.2 = some () := by
      obtain ⟨address, sessionKey, connection, encrypted, id, ingressSequence, egressSequence,
        messageLength, message, buffer, record⟩ := channel
      cases message <;> rfl
    rw [hresult] at hexec
    have hfreed := hbase _ _ hexec
    rw [freed_of_teardown hexec, hmessage] at hfreed
    simpa using hfreed
  · intro hzero events last hexec
    rw [freed_of_teardown hexec]
    cases hmessage : channel.message with
    | none => rfl
    | some offset =>
      obtain rfl := hzero offset hmessage
      rfl

end Teardown

section Result
variable {init last : Channel} {steps : List (Step openChannel)}

/-- In every run in which no read of a record is answered with more than was asked for, the
unread bytes of a record lie in its allocation whenever a call is made and between the
operations, every call finds its memory sound, and a teardown frees the allocation of the
record where no part of the record has been consumed. -/
theorem record_buffer_kept (hinit : Fresh init) (trace : Trace openChannel init steps last)
    (hfits : ∀ {β : Type} (c : Call β) (answer : β),
      .answered c answer ∈ eventsOf steps → RecordFits c answer) :
    Kept last (memoryOf init steps) ∧
      (∀ (earlier : List (Event Call)) (β : Type) (c : Call β),
        eventsOf steps = earlier ++ [.issued c] → Sound (memoryOf init steps) c) ∧
      (TornDownAtBase last ↔ ∀ offset, last.message = some offset → offset = 0) := by
  have hhonours : buffers.Honours (start init) (eventsOf steps) :=
    Contract.honours_of_answers fun c answer hmem _ => hfits c answer hmem
  have hstep : ∀ op channel memory, Held channel memory →
      buffers.wp (fun _ last m => Held last m) (openChannel.handle op) channel memory :=
    fun op _ _ hheld => handle_spec op hheld
  cases trace with
  | resting run =>
    have hheld := run.honoured hinit.held hhonours hstep
    refine ⟨hheld.kept, fun earlier β c hwaiting => ?_, tornDownAtBase_iff⟩
    exact absurd hwaiting (run.not_waiting earlier c)
  | @inside steps step run valid waiting =>
    obtain ⟨before, β, c, hsplit, hsafe⟩ :=
      run.honoured_waiting valid waiting hinit.held hhonours hstep
    have hmemory : memoryOf init (steps ++ [step]) = before.foldl buffers.observe (start init) := by
      rw [memoryOf, hsplit, List.foldl_append]
      rfl
    rw [hmemory]
    refine ⟨hsafe.1, fun earlier β' c' hwaiting => ?_, tornDownAtBase_iff⟩
    rw [hsplit] at hwaiting
    cases (List.append_inj' hwaiting rfl).2
    exact hsafe.2

end Result

section Examples

theorem zeroChannel_fresh : Fresh zeroChannel := ⟨rfl, rfl⟩

theorem recordFits_of_keepsWhole {β : Type} {c : Call β} {answer : β}
    (h : RecordAuthenticity.KeepsWhole c answer) : RecordFits c answer := by
  cases c with
  | ocallIngress connection target size =>
    cases target with
    | record offset => exact h.1
    | _ => trivial
  | _ => trivial

def consumedRun : List (Step openChannel) := playRun openChannel wholeHost 0 zeroChannel [.ingress 5]

def consumedChannel : Channel := lastState openChannel zeroChannel consumedRun

theorem consumedRun_run : Run openChannel zeroChannel consumedRun consumedChannel :=
  run_playRun openChannel wholeHost zeroChannel [.ingress 5] (by decide +kernel)

theorem consumedRun_fits {β : Type} (c : Call β) (answer : β)
    (hanswered : .answered c answer ∈ eventsOf consumedRun) : RecordFits c answer := by
  obtain ⟨step, hstep, hevent⟩ := List.mem_flatMap.mp hanswered
  obtain ⟨time, hhost⟩ := playRun_answered (show .host (.answered c answer) ∈ logOf consumedRun from
    List.mem_flatMap.mpr ⟨step, hstep, by simp [Step.log, hevent]⟩)
  exact recordFits_of_keepsWhole (RecordAuthenticity.wholeHost_keepsWhole time c answer hhost)

/-- Five of eight bytes have been consumed. -/
theorem record_buffer_kept_consumed : consumedChannel.message = some 5 ∧
    Kept consumedChannel (memoryOf zeroChannel consumedRun) :=
  ⟨by decide +kernel,
    (record_buffer_kept zeroChannel_fresh (.resting consumedRun_run) consumedRun_fits).1⟩

/-- The host returns twice what was asked for. -/
def overrun : Step openChannel :=
  playStep openChannel (recordHost fun _ _ => some 16) 0 zeroChannel (.ingress 5)

def waitsPast : Event Call → Bool
  | .issued (.readPast _ _) => true
  | _ => false

/-- A read answered with twice what was asked for is decrypted past the end of the allocation,
and after a part of a record has been consumed a teardown does not free its allocation. -/
theorem record_buffer_overrun :
    (∃ (steps : List (Step openChannel)) (last : Channel), Trace openChannel zeroChannel steps last ∧
      ∃ (earlier : List (Event Call)) (address count : Nat),
        eventsOf steps = earlier ++ [.issued (.readPast address count)] ∧
          ¬ Kept last (memoryOf zeroChannel steps)) ∧
    ∃ (steps : List (Step openChannel)) (last : Channel), Run openChannel zeroChannel steps last ∧
      (∀ {β : Type} (c : Call β) (answer : β), .answered c answer ∈ eventsOf steps →
        RecordFits c answer) ∧ ¬ TornDownAtBase last := by
  constructor
  · have hlast : overrun.events.getLast?.any waitsPast = true := by decide +kernel
    have hwaiting : overrun.result.isNone = true := by decide +kernel
    have hlengths : overrun.after.message = some 0 ∧ overrun.after.messageLength = 16 ∧
        (memoryOf zeroChannel [overrun]).envelope = 8 := by decide +kernel
    have htrace : Trace openChannel zeroChannel [overrun] overrun.after :=
      .inside .start (playStep_valid openChannel _ 0 zeroChannel (.ingress 5))
        (Option.isNone_iff_eq_none.mp hwaiting)
    cases hevent : overrun.events.getLast? with
    | none =>
      rw [hevent] at hlast
      cases hlast
    | some event =>
      rw [hevent] at hlast
      obtain ⟨earlier, hevents⟩ := List.getLast?_eq_some_iff.mp hevent
      match event, hlast with
      | .issued (.readPast address count), _ =>
        have hall : eventsOf [overrun] = overrun.events := List.append_nil _
        refine ⟨[overrun], overrun.after, htrace, earlier, address, count, hall.trans hevents,
          fun hkept => ?_⟩
        have hinside := (hkept.inside 0 hlengths.1).2
        omega
  · refine ⟨consumedRun, consumedChannel, consumedRun_run, consumedRun_fits, fun hbase => ?_⟩
    have hoffset := tornDownAtBase_iff.mp hbase 5 (by decide +kernel)
    cases hoffset

end Examples

end Auntie.Guarantees.RecordBuffer
