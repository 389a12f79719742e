import Auntie.Source.Common.Messages

/-!
# Termination of `auntie_msg_receive`

The loop over the payload leaves on a negative value only. On an encrypted channel a closed
connection is such a value, on a plaintext channel it is zero, and the loop goes round for as
long as the host returns zero.
-/

namespace Auntie.Guarantees.ReceiveTermination
open Auntie.Source Auntie.Source.Channels Auntie.Interaction

section Statement

/-- No byte has been delivered, and no error reported. -/
def silent {β : Type} : Call β → β → Bool
  | .ocallIngress _ .caller _, (ret, _) => ret == 0
  | .sgxAesGcmDecrypt _ source _ _ _, (success, _) => source.isEmpty && success
  | _, _ => false

def silentEvent : Event Call → Bool
  | .answered c answer => silent c answer
  | .issued _ => false

def silences (events : List (Event Call)) : Nat := events.countP silentEvent

/-- A host on which every call returns. -/
def receivePlay (host : {β : Type} → Nat → Call β → β) (channel : Channel) (fuel : Nat) :
    List (Event Call) × Channel × Option Reception :=
  play (fun time c => some (host time c)) 0 (auntieMsgReceive fuel) channel

/-- The loop comes to an end. -/
def Terminates (host : {β : Type} → Nat → Call β → β) (channel : Channel) : Prop :=
  ∃ fuel, (receivePlay host channel fuel).2.2 ≠ some .unfinished

/-- One round of the loop over the payload: the value returned, or what has been received. -/
def receiveRound (header : MessageHeader) (address bytesReceived : Nat) (payload : Bytes) :
    Code (Reception ⊕ (Nat × Bytes)) := do
  let received ← channelIngress (header.payloadSize - bytesReceived)
  if received.ret < 0 then
    let _ ← issue (.free address)
    return .inl .failed
  return .inr (bytesReceived + received.ret.toInt.toNat,
    store payload bytesReceived received.bytes)

/-- The loop is left, or less remains to be received. -/
def Advances (header : MessageHeader) (bytesReceived : Nat) : Reception ⊕ (Nat × Bytes) → Prop
  | .inl _ => True
  | .inr (more, _) => header.payloadSize - more < header.payloadSize - bytesReceived

/-- On an encrypted channel a record that is kept has unread bytes. -/
def Ready (channel : Channel) : Prop :=
  channel.encrypted = true → channel.message.isSome → 0 < channel.messageLength

end Statement

section Counting
variable {channel : Channel} {n : Nat}

def counting : Monitor Call Channel Nat where
  answered n c answer := n + (silent c answer).toNat

theorem foldl_counting (events : List (Event Call)) :
    events.foldl counting.observe n = n + silences events := by
  induction events generalizing n with
  | nil => rfl
  | cons event rest ih =>
    rw [List.foldl_cons, ih, silences, silences, List.countP_cons]
    cases event with
    | issued c => rfl
    | answered c answer =>
      have hone : counting.observe n (.answered c answer) = n + (silent c answer).toNat := rfl
      rw [hone, silentEvent]
      cases silent c answer with
      | false => simp
      | true =>
        simp only [Bool.toNat_true, if_true]
        omega

theorem wp_counting_issue {β : Type} {c : Call β} {post : β → Channel → Nat → Prop} :
    wp counting post (issue c : Code β) channel n ↔
      ∀ answer, post answer channel (n + (silent c answer).toNat) := by
  simp [counting]

theorem readMessage_spec {offset count : Nat} {post : Bytes → Channel → Nat → Prop}
    (hpost : ∀ bytes, bytes.length = count → post bytes channel n) :
    wp counting post (readMessage offset count) channel n := by
  simp only [readMessage, wp_bind, wp_get, wp_ite, wp_counting_issue, wp_pure]
  constructor
  · intro hshort past
    apply hpost
    rw [List.length_append, past.property]
    omega
  · intro hall
    apply hpost
    have hle := List.length_take_le count (channel.record.drop offset)
    omega

theorem copyMessage_spec {offset size : Nat} :
    wp counting (fun received last m => m = n ∧ Ready last ∧
        received.ret = Int32.ofNat (min size channel.messageLength))
      (copyMessage offset size) channel n := by
  have hmoved : (if channel.messageLength > size then size else channel.messageLength) =
      min size channel.messageLength := by
    split <;> omega
  simp only [copyMessage, wp_bind, wp_get, hmoved]
  apply readMessage_spec
  intro bytes _
  simp only [wp_modify, wp_ite, wp_bind, wp_counting_issue, wp_set, wp_pure]
  constructor
  · intro _ _
    exact ⟨rfl, fun _ hsome => absurd hsome (by simp), trivial⟩
  · intro hleft
    exact ⟨trivial, fun _ _ => Nat.pos_of_ne_zero hleft, trivial⟩

theorem fillRecord_spec {length : Nat} (body : Allocation length) (messageLength : Nat)
    {post : Option Int32 → Channel → Nat → Prop}
    (hpost : ∀ result record left, (∀ error, result = some error → error < 0) →
      post result { channel with record := record, messageLength := left } n) :
    wp counting post (fillRecord body messageLength) channel n := by
  induction messageLength using @fillRecord.induct length generalizing channel n with
  | case1 messageLength hless ih =>
    rw [fillRecord, if_pos hless]
    simp only [wp_bind, wp_get, wp_counting_issue, wp_set, wp_dite, wp_pure, wp_modify]
    rintro ⟨ret, bytes⟩
    constructor
    · intro hneg
      exact hpost (some ret) _ channel.messageLength (by simpa using hneg)
    · intro hneg
      constructor
      · intro _
        exact hpost (some (-econnreset)) _ channel.messageLength (by simp; decide)
      · intro hzero
        exact ih ret hneg hzero fun result record left herror => hpost result record left herror
  | case2 messageLength hdone =>
    rw [fillRecord, if_neg hdone, wp_pure]
    exact hpost none channel.record channel.messageLength (by simp)

/-- A record is there, and it is empty if and only if that has been counted. -/
theorem nextRecord_spec :
    wp counting (fun error last m => (∀ value, error = some value → value < 0 ∧ m = n) ∧
        (error = none → m = n + (last.messageLength == 0).toNat)) nextRecord channel n := by
  simp only [nextRecord, wp_bind, wp_get, wp_counting_issue, wp_ite, wp_pure]
  rintro ⟨ret, bytes⟩
  constructor
  · intro _
    refine ⟨?_, by simp⟩
    simp only [Option.some.injEq, forall_eq']
    refine ⟨?_, rfl⟩
    split
    · assumption
    · split <;> decide
  · intro _ body
    cases body with
    | none => exact ⟨by simpa using ⟨by decide, rfl⟩, by simp⟩
    | some body =>
      simp only [wp_bind, wp_modify]
      apply fillRecord_spec
      intro result record left hresult
      cases result with
      | some error => exact ⟨by simpa using ⟨hresult error rfl, rfl⟩, by simp⟩
      | none =>
        simp only [decryptRecord, wp_bind, wp_get]
        apply readMessage_spec
        intro source hsource
        simp only [wp_bind, wp_counting_issue, wp_modify, wp_ite, wp_pure]
        rintro ⟨success, plaintext⟩
        constructor
        · intro hfailed
          have hsilent : success = false := by simpa using hfailed
          exact ⟨by simpa [silent, hsilent] using by decide, by simp⟩
        · intro hopened
          have hsuccess : success = true := by simpa using hopened
          refine ⟨by simp, fun _ => ?_⟩
          have hempty : source.isEmpty = (left == 0) := by
            rw [← hsource]
            cases source <;> rfl
          simp [silent, hsuccess, hempty]

end Counting

section Rounds
variable {channel : Channel} {n : Nat}

/-- An error, or bytes have been delivered, or nothing has and that has been counted. -/
def Delivers (n : Nat) (received : Received) (last : Channel) (m : Nat) : Prop :=
  received.ret < 0 ∧ m = n ∨
    ¬ received.ret < 0 ∧ Ready last ∧
      (0 < received.ret.toInt.toNat ∧ m = n ∨ received.ret = 0 ∧ m = n + 1)

theorem delivers_moved {size left : Nat} {received : Received} {last : Channel} {m : Nat}
    (hsize : 0 < size) (hfits : size ≤ heapMaxSize) (hready : Ready last)
    (hret : received.ret = Int32.ofNat (min size left))
    (hm : m = n + (left == 0).toNat) : Delivers n received last m := by
  have hvalue : received.ret.toInt = (min size left : Nat) := by
    rw [hret, Int32.toInt_ofNat_of_lt]
    unfold heapMaxSize at hfits
    omega
  have hnonneg : ¬ received.ret < 0 := by
    rw [int32_neg, hvalue]
    omega
  refine .inr ⟨hnonneg, hready, ?_⟩
  cases left with
  | zero => exact .inr ⟨by simpa using hret, hm⟩
  | succ left =>
    refine .inl ⟨?_, hm⟩
    rw [hvalue, Int.toNat_natCast]
    omega

theorem channelIngress_spec {size : Nat} (hready : Ready channel) (hsize : 0 < size)
    (hfits : size ≤ heapMaxSize) :
    wp counting (Delivers n) (channelIngress size) channel n := by
  simp only [channelIngress, wp_bind, wp_get]
  cases hencrypted : channel.encrypted with
  | false =>
    simp only [Bool.false_eq_true, if_false, plaintextIngress, wp_bind, wp_get, wp_counting_issue,
      wp_pure]
    rintro ⟨ret, bytes⟩
    by_cases hzero : ret = 0
    · subst hzero
      have hnonneg : ¬ (0 : Int32) < 0 := by decide
      exact .inr ⟨hnonneg, hready, .inr ⟨rfl, rfl⟩⟩
    · have hsilent : (ret == 0) = false := by simpa using hzero
      by_cases hneg : ret < 0
      · exact .inl ⟨hneg, by simp [silent, hsilent]⟩
      · refine .inr ⟨hneg, hready, .inl ⟨?_, by simp [silent, hsilent]⟩⟩
        rw [int32_neg] at hneg
        rw [int32_zero] at hzero
        simp only
        omega
  | true =>
    simp only [if_true, encryptedIngress, wp_bind, wp_get]
    cases hmessage : channel.message with
    | some offset =>
      have hpos : 0 < channel.messageLength := hready hencrypted (by simp [hmessage])
      refine wp_mono ?_ copyMessage_spec
      rintro received last m ⟨hm, hlast, hret⟩
      refine delivers_moved hsize hfits hlast hret ?_
      simp [hm, hpos.ne']
    | none =>
      rw [wp_bind]
      refine wp_mono ?_ nextRecord_spec
      rintro error last m ⟨herror, hopened⟩
      cases error with
      | some error =>
        obtain ⟨hneg, hm⟩ := herror error rfl
        exact .inl ⟨hneg, hm⟩
      | none =>
        refine wp_mono ?_ copyMessage_spec
        rintro received after m' ⟨rfl, hafter, hret⟩
        exact delivers_moved hsize hfits hafter hret (hopened rfl)

/-- A round of the loop advances unless nothing has been delivered. -/
theorem receiveRound_spec {header : MessageHeader} {address bytesReceived : Nat} {payload : Bytes}
    (hready : Ready channel) (hless : bytesReceived < header.payloadSize)
    (hfits : header.payloadSize ≤ heapMaxSize) :
    wp counting (fun outcome last m =>
        (∀ reception, outcome = .inl reception → reception ≠ .unfinished) ∧
        (∀ more rest, outcome = .inr (more, rest) → Ready last ∧ bytesReceived ≤ more) ∧
        (Advances header bytesReceived outcome ↔ m = n) ∧ n ≤ m ∧ m ≤ n + 1)
      (receiveRound header address bytesReceived payload) channel n := by
  have hsize : 0 < header.payloadSize - bytesReceived := Nat.sub_pos_of_lt hless
  rw [receiveRound, wp_bind]
  refine wp_mono ?_ (channelIngress_spec hready hsize (by omega))
  intro received last m hdelivers
  simp only [wp_ite, wp_bind, wp_counting_issue, wp_pure]
  constructor
  · intro hneg _
    have hm : m = n := by
      rcases hdelivers with ⟨_, hm⟩ | ⟨hnonneg, _⟩
      · exact hm
      · exact absurd hneg hnonneg
    simp [Advances, silent, hm]
  · intro hnonneg
    obtain ⟨_, hlast, hcount⟩ := hdelivers.resolve_left fun h => hnonneg h.1
    simp only [Sum.inr.injEq, Prod.mk.injEq, Advances]
    rcases hcount with ⟨hpos, hm⟩ | ⟨hzero, hm⟩
    · refine ⟨by simp, ?_, ?_, ?_⟩
      · rintro more rest ⟨rfl, rfl⟩
        exact ⟨hlast, by omega⟩
      · exact iff_of_true (by omega) hm
      · omega
    · have hnone : received.ret.toInt.toNat = 0 := by
        rw [hzero]
        rfl
      refine ⟨by simp, ?_, ?_, ?_⟩
      · rintro more rest ⟨rfl, rfl⟩
        exact ⟨hlast, by omega⟩
      · exact iff_of_false (by omega) (by omega)
      · omega

theorem receivePayload_succ (header : MessageHeader) (address fuel bytesReceived : Nat)
    (payload : Bytes) (hless : bytesReceived < header.payloadSize) :
    receivePayload header address (fuel + 1) bytesReceived payload =
      receiveRound header address bytesReceived payload >>= fun outcome =>
        outcome.elim pure fun (more, rest) => receivePayload header address fuel more rest := by
  rw [receivePayload, if_pos hless, receiveRound]
  simp only [bind_assoc]
  congr 1
  funext received
  by_cases hneg : received.ret < 0
  · simp only [hneg, if_true, bind_assoc, pure_bind, Sum.elim_inl]
  · simp only [hneg, if_false, pure_bind, Sum.elim_inr]

theorem receivePayload_done (header : MessageHeader) (address fuel bytesReceived : Nat)
    (payload : Bytes) (hdone : ¬ bytesReceived < header.payloadSize) :
    receivePayload header address fuel bytesReceived payload =
      return .message ⟨header.msgType, payload⟩ := by
  unfold receivePayload
  exact if_neg hdone

/-- By induction on the fuel: a round either receives more or is counted. -/
theorem receivePayload_spec {header : MessageHeader} {address fuel bytesReceived : Nat}
    {payload : Bytes} (hready : Ready channel) (hfits : header.payloadSize ≤ heapMaxSize) :
    wp counting (fun reception _ m => n ≤ m ∧
        (reception = .unfinished → bytesReceived + fuel ≤ header.payloadSize + (m - n)))
      (receivePayload header address fuel bytesReceived payload) channel n := by
  induction fuel generalizing bytesReceived payload channel n with
  | zero =>
    unfold receivePayload
    split
    · exact ⟨Nat.le_refl n, fun _ => by omega⟩
    · exact ⟨Nat.le_refl n, fun h => by cases h⟩
  | succ fuel ih =>
    by_cases hless : bytesReceived < header.payloadSize
    · rw [receivePayload_succ header address fuel bytesReceived payload hless, wp_bind]
      refine wp_mono ?_ (receiveRound_spec hready hless hfits)
      rintro outcome last m ⟨hleft, hmore, hadvances, hle, _⟩
      cases outcome with
      | inl reception => exact ⟨hle, fun hcut => absurd hcut (hleft reception rfl)⟩
      | inr received =>
        obtain ⟨more, rest⟩ := received
        obtain ⟨hlast, hgrown⟩ := hmore more rest rfl
        refine wp_mono ?_ (ih hlast)
        rintro reception final m' ⟨hle', hunfinished⟩
        refine ⟨by omega, fun hcut => ?_⟩
        have hrest := hunfinished hcut
        by_cases hm : m = n
        · have hgain := hadvances.mpr hm
          simp only [Advances] at hgain
          omega
        · omega
    · rw [receivePayload_done _ _ _ _ _ hless]
      exact ⟨Nat.le_refl n, fun h => by cases h⟩

theorem headerIngress_spec (size : Nat) :
    wp counting (fun received last m => n ≤ m ∧ (received.ret = 8 → Ready last))
      (channelIngress size) channel n := by
  simp only [channelIngress, wp_bind, wp_get]
  cases hencrypted : channel.encrypted with
  | false =>
    simp only [Bool.false_eq_true, if_false, plaintextIngress, wp_bind, wp_get, wp_counting_issue,
      wp_pure]
    intro answer
    exact ⟨Nat.le_add_right _ _, fun _ h => absurd h (by simp [hencrypted])⟩
  | true =>
    simp only [if_true, encryptedIngress, wp_bind, wp_get]
    cases channel.message with
    | some offset =>
      refine wp_mono ?_ copyMessage_spec
      rintro received last m ⟨hm, hlast, _⟩
      exact ⟨hm.ge, fun _ => hlast⟩
    | none =>
      rw [wp_bind]
      refine wp_mono ?_ nextRecord_spec
      rintro error last m ⟨herror, hopened⟩
      cases error with
      | some error =>
        obtain ⟨hneg, hm⟩ := herror error rfl
        refine ⟨hm.ge, fun height => ?_⟩
        simp only at height
        subst height
        exact absurd hneg (by decide)
      | none =>
        have hle : n ≤ m := by rw [hopened rfl]; exact Nat.le_add_right _ _
        refine wp_mono ?_ copyMessage_spec
        rintro received after m' ⟨rfl, hafter, _⟩
        exact ⟨hle, fun _ => hafter⟩

theorem auntieMsgReceive_spec (fuel : Nat) :
    wp counting (fun reception _ m => reception = .unfinished → fuel ≤ heapMaxSize + m)
      (auntieMsgReceive fuel) channel 0 := by
  rw [auntieMsgReceive, wp_bind]
  refine wp_mono ?_ (headerIngress_spec sizeofMessageHeader)
  rintro received last m ⟨_, hready⟩
  simp only [wp_ite, wp_bind, wp_counting_issue, wp_pure]
  have hfailed : Reception.failed ≠ .unfinished := by decide
  constructor
  · exact fun _ hcut => absurd hcut hfailed
  · intro hret
    constructor
    · exact fun _ hcut => absurd hcut hfailed
    · intro _ body
      cases body with
      | none => exact fun hcut => absurd hcut hfailed
      | some body =>
        have hfits := body.fits
        have hlast : Ready last := hready (not_not.mp hret)
        refine wp_mono ?_ (receivePayload_spec hlast (by omega))
        intro reception final m' hpayload hcut
        have hcount := hpayload.2 hcut
        simp only [silent, Bool.toNat_false] at hcount
        omega

end Rounds

section Fuel
open Program (Completes)

/-- More fuel changes nothing unless the fuel has run out. -/
theorem receivePayload_completes (header : MessageHeader) (address more : Nat)
    {fuel bytesReceived : Nat} {payload : Bytes} :
    Completes (· = .unfinished) (receivePayload header address fuel bytesReceived payload)
      (receivePayload header address (fuel + more) bytesReceived payload) := by
  induction fuel generalizing bytesReceived payload with
  | zero =>
    by_cases hless : bytesReceived < header.payloadSize
    · rw [receivePayload, if_pos hless]
      exact .ends rfl
    · rw [receivePayload_done _ _ _ _ _ hless, receivePayload_done _ _ _ _ _ hless]
      exact .refl _
  | succ fuel ih =>
    by_cases hless : bytesReceived < header.payloadSize
    · rw [Nat.add_right_comm, receivePayload_succ _ _ _ _ _ hless, receivePayload_succ _ _ _ _ _ hless]
      apply Completes.bind
      intro outcome
      cases outcome with
      | inl reception => exact .refl _
      | inr received => exact ih
    · rw [receivePayload_done _ _ _ _ _ hless, receivePayload_done _ _ _ _ _ hless]
      exact .refl _

theorem auntieMsgReceive_completes {fuel longer : Nat} (hle : fuel ≤ longer) :
    Completes (· = .unfinished) (auntieMsgReceive fuel) (auntieMsgReceive longer) := by
  obtain ⟨more, rfl⟩ := Nat.exists_eq_add_of_le hle
  unfold auntieMsgReceive
  apply Completes.bind
  intro received
  dsimp only
  split
  · exact .refl _
  · split
    · exact .refl _
    · apply Completes.bind
      intro msg
      cases msg with
      | none => exact .refl _
      | some msg => exact receivePayload_completes _ _ more

end Fuel

section Result
variable (host : {β : Type} → Nat → Call β → β) (channel : Channel)

theorem fuel_le_of_unfinished {fuel : Nat}
    (h : (receivePlay host channel fuel).2.2 = some .unfinished) :
    fuel ≤ heapMaxSize + silences (receivePlay host channel fuel).1 := by
  have hexec := exec_play (fun time c => some (host time c)) 0 (auntieMsgReceive fuel) channel
  have hresult : (play (fun time c => some (host time c)) 0 (auntieMsgReceive fuel) channel).2.2 =
      some .unfinished := h
  rw [hresult] at hexec
  have hcount := hexec.returned (auntieMsgReceive_spec fuel) rfl
  rwa [foldl_counting, Nat.zero_add] at hcount

/-- A message is received to its end if and only if the reads that deliver nothing do not go
on for ever, and every round of the loop in which one does not occur receives more or leaves. -/
theorem receive_terminates_iff :
    (Terminates host channel ↔
      ∃ bound, ∀ fuel, silences (receivePlay host channel fuel).1 ≤ bound) ∧
    ∀ (header : MessageHeader) (address bytesReceived : Nat) (payload : Bytes)
      (before after : Channel) (events : List (Event Call)) (outcome : Reception ⊕ (Nat × Bytes)),
      Ready before → bytesReceived < header.payloadSize → header.payloadSize ≤ heapMaxSize →
      Exec (receiveRound header address bytesReceived payload) before events after (some outcome) →
      (Advances header bytesReceived outcome ↔ silences events = 0) := by
  constructor
  · constructor
    · rintro ⟨enough, hfinished⟩
      refine ⟨silences (receivePlay host channel enough).1, fun fuel => ?_⟩
      rcases Nat.le_total fuel enough with hle | hle
      · have hevents : (receivePlay host channel fuel).1 <+: (receivePlay host channel enough).1 :=
          (auntieMsgReceive_completes hle).play_isPrefix
        exact hevents.sublist.countP_le
      · obtain ⟨reception, hreception⟩ := Option.isSome_iff_exists.mp
          (play_isSome host 0 (auntieMsgReceive enough) channel)
        have hvalue : reception ≠ .unfinished := by
          rintro rfl
          exact hfinished hreception
        have hsame : receivePlay host channel fuel = receivePlay host channel enough :=
          (auntieMsgReceive_completes hle).play_eq hreception hvalue
        rw [hsame]
    · rintro ⟨bound, hbound⟩
      refine ⟨heapMaxSize + bound + 1, fun hunfinished => ?_⟩
      have hfuel := fuel_le_of_unfinished host channel hunfinished
      have hsilences := hbound (heapMaxSize + bound + 1)
      omega
  · intro header address bytesReceived payload before after events outcome hready hless hfits hexec
    have hround := hexec.returned (receiveRound_spec hready hless hfits : wp counting _ _ _ 0)
    rw [foldl_counting, Nat.zero_add] at hround
    exact hround.2.2.1

end Result

section Examples

/-- Each read is answered with at least one byte, or from some time on each one is answered with
the end of the stream or an error. -/
def EndsOnce (host : {β : Type} → Nat → Call β → β) : Prop :=
  (∀ time connection target size, 0 < (host time (.ocallIngress connection target size)).1) ∨
    ∃ stop, ∀ time connection target size,
      (time < stop → 0 < (host time (.ocallIngress connection target size)).1) ∧
        (stop ≤ time → (host time (.ocallIngress connection target size)).1 ≤ 0)

/-- The peer sends a header that announces this many bytes, and closes the connection. -/
def closingHost (payloadSize : UInt8) {β : Type} (time : Nat) : Call β → β
  | .ocallIngress _ _ size =>
    if time = 0 then (8, FixedBytes.fit size [0, 0, 0, 0, payloadSize, 0, 0, 0])
    else (0, FixedBytes.zero size)
  | .ocallEgress _ _ => 0
  | .ocallDropConnection _ => 0
  | .malloc size => if h : size ≤ heapMaxSize then some ⟨1, FixedBytes.zero size, h⟩ else none
  | .free _ => ()
  | .readPast _ count => FixedBytes.zero count
  | .sgxAesGcmDecrypt _ source _ _ _ => (false, FixedBytes.zero source.length)
  | .sgxAesGcmEncrypt _ _ _ _ => none

theorem closingHost_first (payloadSize : UInt8) {time : Nat} (htime : time = 0) (connection : Nat)
    (target : Target) (size : Nat) :
    closingHost payloadSize time (.ocallIngress connection target size) =
      (8, FixedBytes.fit size [0, 0, 0, 0, payloadSize, 0, 0, 0]) := if_pos htime

theorem closingHost_later (payloadSize : UInt8) {time : Nat} (htime : time ≠ 0) (connection : Nat)
    (target : Target) (size : Nat) :
    closingHost payloadSize time (.ocallIngress connection target size) =
      (0, FixedBytes.zero size) := if_neg htime

theorem closingHost_endsOnce (payloadSize : UInt8) : EndsOnce (closingHost payloadSize) := by
  refine .inr ⟨1, fun time connection target size => ⟨fun hbefore => ?_, fun hafter => ?_⟩⟩
  · have hzero : time = 0 := by omega
    have hanswer := closingHost_first payloadSize hzero connection target size
    simp only [hanswer]
    decide
  · have hlater : time ≠ 0 := by omega
    have hanswer := closingHost_later payloadSize hlater connection target size
    simp only [hanswer]
    decide

def plainChannel : Channel := channelCreate ⟨1, FixedBytes.zero sizeofChannel, sizeofChannel_le⟩ 1

/-- The peer sends a header that announces three bytes, and one byte at a time. -/
def fragmentHost {β : Type} (time : Nat) : Call β → β
  | .ocallIngress _ _ size =>
    if time = 0 then (8, FixedBytes.fit size [0, 0, 0, 0, 3, 0, 0, 0])
    else (1, FixedBytes.fit size [7])
  | c => closingHost 0 time c

theorem fragmentHost_delivers {β : Type} (time : Nat) (c : Call β) :
    silent c (fragmentHost time c) = false := by
  cases c with
  | ocallIngress connection target size =>
    have hdelivers : ((fragmentHost time (.ocallIngress connection target size)).1 == 0) = false := by
      simp only [fragmentHost]
      split
      · rfl
      · rfl
    cases target with
    | caller => exact hdelivers
    | envelope | record => rfl
  | sgxAesGcmDecrypt key source iv mac aad => exact Bool.and_false _
  | _ => rfl

theorem silences_eq_zero {host : {β : Type} → Nat → Call β → β}
    (hdelivers : ∀ {β : Type} (time : Nat) (c : Call β), silent c (host time c) = false)
    (channel : Channel) (fuel : Nat) : silences (receivePlay host channel fuel).1 = 0 := by
  refine List.countP_eq_zero.mpr fun event hevent hsilent => ?_
  cases event with
  | issued c => cases hsilent
  | answered c answer =>
    obtain ⟨time, hanswer⟩ := play_answered hevent
    rw [← Option.some.inj hanswer] at hsilent
    exact Bool.noConfusion (hsilent.symm.trans (hdelivers time c))

/-- A message that arrives in four pieces, and the round that receives the third of them. -/
theorem receive_terminates_fragments : Terminates fragmentHost plainChannel ∧
    (receivePlay fragmentHost plainChannel 3).2.2 = some (.message ⟨0, [7, 7, 7]⟩) ∧
    ∃ (events : List (Event Call)) (after : Channel),
      Exec (receiveRound ⟨0, 3⟩ 1 1 [7, 0, 0]) plainChannel events after
        (some (.inr (2, [7, 7, 0]))) ∧
        Advances ⟨0, 3⟩ 1 (.inr (2, [7, 7, 0])) := by
  have hiff := receive_terminates_iff fragmentHost plainChannel
  refine ⟨hiff.1.mpr ⟨0, fun fuel => ?_⟩, by decide +kernel, ?_⟩
  · exact (silences_eq_zero fragmentHost_delivers plainChannel fuel).le
  · have hexec := exec_play (fun time c => some (fragmentHost time c)) 6
      (receiveRound ⟨0, 3⟩ 1 1 [7, 0, 0]) plainChannel
    refine ⟨_, _, hexec, (hiff.2 _ _ _ _ _ _ _ _ ?_ (by decide) (by decide) hexec).mpr (by decide)⟩
    exact fun h => absurd h (by decide)

/-- No byte arrives, and no round of the loop leaves it. -/
theorem receivePayload_unfinished (fuel : Nat) {time : Nat} (htime : time ≠ 0) (payload : Bytes) :
    (play (fun time c => some (closingHost 1 time c)) time
      (receivePayload ⟨0, 1⟩ 1 fuel 0 payload) plainChannel).2.2 = some .unfinished := by
  induction fuel generalizing time payload with
  | zero => rfl
  | succ fuel ih =>
    have hround : (play (fun time c => some (closingHost 1 time c)) time
        (receivePayload ⟨0, 1⟩ 1 (fuel + 1) 0 payload) plainChannel).2.2 =
        (play (fun time c => some (closingHost 1 time c)) (time + 2)
          (receivePayload ⟨0, 1⟩ 1 fuel 0 (store payload 0 (FixedBytes.zero 1).val)) plainChannel).2.2 := by
      have hanswer := closingHost_later 1 htime plainChannel.connection .caller 1
      have hplain : ¬ plainChannel.encrypted = true := by decide
      have hnonneg : ¬ (0 : Int32) < 0 := by decide
      rw [receivePayload, if_pos Nat.one_pos]
      simp only [channelIngress, plaintextIngress, Bind.bind, Program.bind, get, getThe, issue, play,
        MonadStateOf.get, if_neg hplain, hanswer, pure, if_neg hnonneg]
      rfl
    rw [hround]
    exact ih (by omega) _

theorem receive_unfinished : ¬ ∀ (host : {β : Type} → Nat → Call β → β) (channel : Channel),
    EndsOnce host → Terminates host channel := by
  intro hall
  obtain ⟨fuel, hfinished⟩ := hall (closingHost 1) plainChannel (closingHost_endsOnce 1)
  apply hfinished
  exact receivePayload_unfinished fuel (show 4 ≠ 0 by decide) _

end Examples

end Auntie.Guarantees.ReceiveTermination
