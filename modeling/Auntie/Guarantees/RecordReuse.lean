import Auntie.Guarantees.StreamIntegrity

/-!
# One record for one stream position

The associated data of a record is the egress counter, which advances only when the host
confirms the whole record. A call that fails after the host has the record leaves the counter,
and the next call seals its own bytes under the same one.
-/

namespace Auntie.Guarantees.RecordReuse
open Auntie.Source Auntie.Source.Channels Auntie.Interaction StreamIntegrity

section Statement

/-- A record as the host holds it: the key, what is sealed, and the counter it is sealed under. -/
structure HeldRecord where
  sessionKey : SessionKey
  plaintext : Bytes
  sequence : Bytes
  deriving DecidableEq

/-- The records handed over, and one that is sealed but not handed over yet. -/
structure Held where
  records : List HeldRecord := []
  sealed : Option HeldRecord := none

def sealedBy {β : Type} : Call β → β → Option HeldRecord
  | .sgxAesGcmEncrypt sessionKey plaintext _ sequence, some _ => some ⟨sessionKey, plaintext, sequence⟩
  | _, _ => none

def isEgress {β : Type} : Call β → Bool
  | .ocallEgress _ _ => true
  | _ => false

def holding : Monitor Call Channel Held where
  issued held c := if isEgress c then ⟨held.records ++ held.sealed.toList, none⟩ else held
  answered held c answer := { held with sealed := (sealedBy c answer).or held.sealed }

def heldRecords (log : List (Entry openChannel)) : List HeldRecord :=
  (log.foldl ({ host := holding } : Observer openChannel Held).observe {}).records

/-- No two records under one key and one counter hold different bytes. -/
def NoReuse (log : List (Entry openChannel)) : Prop :=
  (heldRecords log).Pairwise fun first second =>
    first.sessionKey = second.sessionKey → first.sequence = second.sequence →
      first.plaintext = second.plaintext

/-- The call hands a record to the host. -/
def hands (events : List (Event Call)) : Bool :=
  events.any fun
    | .issued c => isEgress c
    | .answered _ _ => false

/-- The host has confirmed the whole record. -/
def confirms {β : Type} : Call β → β → Bool
  | .ocallEgress _ record, count => count.toInt = record.length
  | _, _ => false

/-- How many bytes of the caller the host has confirmed in a call of this size. -/
def confirmed (size : Nat) (events : List (Event Call)) : Nat :=
  if events.any fun
    | .answered c answer => confirms c answer
    | .issued _ => false then size else 0

/-- The bytes of each call that hands over a record, with the number of bytes the host had
confirmed before it. -/
def attempts (total : Nat) : List (Step openChannel) → List (Nat × Bytes)
  | [] => []
  | step :: rest =>
    (if hands step.events then [(total, bytesOf step.op)] else []) ++
      attempts (total + confirmed (bytesOf step.op).length step.events) rest

/-- Between calls that hand over different bytes the host confirms some bytes, and not a
multiple of `2^64`. -/
def Separated (steps : List (Step openChannel)) : Prop :=
  (attempts 0 steps).Pairwise fun first second =>
    first.2 ≠ second.2 → ¬ 2 ^ 64 ∣ second.1 - first.1

end Statement

section Steps
variable {key : SessionKey} {channel last : Channel} {total : Nat} {held : List HeldRecord}

/-- The record of a call that finds the counter at `total`. -/
def recordAt (key : SessionKey) (attempt : Nat × Bytes) : HeldRecord :=
  ⟨key, attempt.2, leBytes 8 (attempt.1 % 2 ^ 64)⟩

/-- What the host holds after the events of a call. -/
def Holds (key : SessionKey) (total : Nat) (bytes : Bytes) (held : List HeldRecord)
    (events : List (Event Call)) : Prop :=
  events.foldl holding.observe ⟨held, none⟩ =
    ⟨held ++ if hands events then [recordAt key (total, bytes)] else [], none⟩

theorem holds_of_quiet {bytes : Bytes} {events : List (Event Call)}
    (hfold : events.foldl holding.observe ⟨held, none⟩ = ⟨held, none⟩)
    (hhands : hands events = false) : Holds key total bytes held events := by
  rw [Holds, hfold, hhands, if_neg Bool.false_ne_true, List.append_nil]

theorem encryptedEgress_holds (h : Sends key total channel) (bytes : Bytes) :
    wp (stopping fun _ events => Holds key total bytes held events)
      (fun _ last events => Holds key total bytes held events ∧
        Sends key (total + confirmed bytes.length events) last)
      (encryptedEgress bytes) channel [] := by
  simp only [encryptedEgress, wp_bind, wp_get, wp_stopping_issue]
  refine ⟨holds_of_quiet rfl rfl, fun buffer => ?_⟩
  cases buffer with
  | none => exact ⟨holds_of_quiet rfl rfl, h⟩
  | some buffer =>
    simp only [wp_bind, wp_stopping_issue]
    refine ⟨holds_of_quiet rfl rfl, fun answer => ?_⟩
    cases answer with
    | none =>
      simp only [wp_bind, wp_stopping_issue, wp_pure]
      exact ⟨holds_of_quiet rfl rfl, fun _ => ⟨holds_of_quiet rfl rfl, h⟩⟩
    | some answer =>
      have hrecord : recordAt key (total, bytes) =
          ⟨channel.sessionKey, bytes, leBytes 8 channel.egressSequence⟩ := by
        rw [recordAt, h.sessionKey, h.sequence]
      simp only [wp_bind, wp_stopping_issue, wp_ite, wp_pure, wp_modify]
      generalize hbytes : (Envelope.encode _ ++ _ : Bytes) = record
      have hlength : record.length = sizeofEnvelope + bytes.length := by
        rw [← hbytes, List.length_append, Envelope.encode_length, answer.1.property]
      refine ⟨?_, fun count => ⟨?_, fun _ => ⟨fun hshort => ⟨?_, ?_⟩, fun hwhole => ⟨?_, ?_⟩⟩⟩⟩
      · rw [Holds, hrecord]
        rfl
      · rw [Holds, hrecord]
        rfl
      · rw [Holds, hrecord]
        rfl
      · have hcount : ¬ count.toInt = (record.length : Int) := by
          rw [hlength]
          exact hshort
        simpa [confirmed, confirms, hcount] using h
      · rw [Holds, hrecord]
        rfl
      · have hcount : count.toInt = (record.length : Int) := by
          rw [hlength]
          exact not_not.mp hwhole
        refine ⟨h.encrypted, h.sessionKey, ?_⟩
        simp [confirmed, confirms, hcount, h.sequence, Nat.mod_add_mod]

/-- Nothing has been handed over, and nothing is sealed. -/
def Quiet (held : List HeldRecord) (events : List (Event Call)) : Prop :=
  events.foldl holding.observe ⟨held, none⟩ = ⟨held, none⟩ ∧ hands events = false

theorem Quiet.issued {events : List (Event Call)} {β : Type} {c : Call β} (hc : ReadsOnly c)
    (h : Quiet held events) : Quiet held (events ++ [.issued c]) := by
  have hegress : isEgress c = false := by
    cases c with
    | ocallEgress => exact absurd hc id
    | _ => rfl
  have hhands := h.2
  simp only [Quiet, hands, List.any_append, Bool.or_eq_false_iff] at hhands ⊢
  constructor
  · rw [List.foldl_append, h.1]
    simp [Monitor.observe, holding, hegress]
  · exact ⟨hhands, by simp [hegress]⟩

theorem Quiet.answered {events : List (Event Call)} {β : Type} {c : Call β} (hc : ReadsOnly c)
    (answer : β) (h : Quiet held events) : Quiet held (events ++ [.answered c answer]) := by
  have hsealed : sealedBy c answer = none := by
    cases c with
    | sgxAesGcmEncrypt => exact absurd hc id
    | _ => rfl
  have hhands := h.2
  simp only [Quiet, hands, List.any_append, Bool.or_eq_false_iff] at hhands ⊢
  constructor
  · rw [List.foldl_append, h.1]
    simp [Monitor.observe, holding, hsealed]
  · exact ⟨hhands, rfl⟩

/-- Reading hands nothing over and keeps the counter. -/
theorem encryptedIngress_holds (h : Sends key total channel) (size : Nat) :
    wp (stopping fun _ events => Holds key total [] held events)
      (fun _ last events => Holds key total [] held events ∧ Sends key total last)
      (encryptedIngress size) channel [] := by
  have hstart : Quiet held [] := ⟨rfl, rfl⟩
  refine (encryptedIngress_within size).wp ?_ ?_ h hstart ?_
  · intro β current events c hc hevents
    have hquiet := hevents.issued hc
    exact holds_of_quiet hquiet.1 hquiet.2
  · intro β c answer events hc hevents
    exact (hevents.issued hc).answered hc answer
  · exact fun _ last events hlast hevents => ⟨holds_of_quiet hevents.1 hevents.2, hlast⟩

theorem handle_holds (h : Sends key total channel) (op : Operation) :
    wp (stopping fun _ events => Holds key total (bytesOf op) held events)
      (fun _ last events => Holds key total (bytesOf op) held events ∧
        Sends key (total + confirmed (bytesOf op).length events) last)
      (handle op) channel [] := by
  cases op with
  | ingress size =>
    simp only [handle, channelIngress, wp_bind, wp_get, h.encrypted, ite_true]
    refine wp_mono ?_ (encryptedIngress_holds h size)
    rintro received last events ⟨hholds, hlast⟩
    have hnothing : confirmed (bytesOf (.ingress size)).length events = 0 := ite_self 0
    rw [hnothing]
    exact ⟨hholds, hlast⟩
  | egress bytes =>
    simp only [handle, channelEgress, wp_bind, wp_get, h.encrypted, ite_true, wp_pure]
    exact encryptedEgress_holds h bytes

end Steps

section Runs
variable {key : SessionKey} {init state : Channel} {steps : List (Step openChannel)}

/-- How many bytes the host has confirmed. -/
def confirmedBy (steps : List (Step openChannel)) : Nat :=
  (steps.map fun step => confirmed (bytesOf step.op).length step.events).sum

theorem attempts_append (total : Nat) (first second : List (Step openChannel)) :
    attempts total (first ++ second) =
      attempts total first ++ attempts (total + confirmedBy first) second := by
  induction first generalizing total with
  | nil => rfl
  | cons step first ih =>
    have hsum : confirmedBy (step :: first) =
        confirmed (bytesOf step.op).length step.events + confirmedBy first := List.sum_cons
    rw [List.cons_append, attempts, attempts, ih, List.append_assoc, hsum, Nat.add_assoc]

theorem attempts_single (total : Nat) (step : Step openChannel) :
    attempts total [step] = if hands step.events then [(total, bytesOf step.op)] else [] := by
  rw [attempts, attempts, List.append_nil]

/-- Later attempts find at least as many bytes confirmed. -/
theorem attempts_sorted (total : Nat) (steps : List (Step openChannel)) :
    (attempts total steps).Pairwise (fun first second => first.1 ≤ second.1) ∧
      ∀ attempt ∈ attempts total steps, total ≤ attempt.1 := by
  induction steps generalizing total with
  | nil => exact ⟨.nil, fun _ h => by cases h⟩
  | cons step rest ih =>
    obtain ⟨hsorted, hle⟩ := ih (total + confirmed (bytesOf step.op).length step.events)
    have hlater : ∀ attempt ∈ attempts (total + confirmed (bytesOf step.op).length step.events) rest,
        total ≤ attempt.1 := fun attempt hattempt => by
      have := hle attempt hattempt
      omega
    rw [attempts]
    split
    · refine ⟨List.pairwise_cons.mpr ⟨hlater, hsorted⟩, fun attempt hattempt => ?_⟩
      rcases List.mem_cons.mp hattempt with rfl | hattempt
      · exact le_refl total
      · exact hlater attempt hattempt
    · exact ⟨hsorted, hlater⟩

def holder : Observer openChannel Held where
  host := holding

/-- What a step leaves the host with. -/
theorem step_holds {step : Step openChannel} {total : Nat} {held : List HeldRecord}
    (h : Sends key total step.before) (hvalid : step.Valid) :
    step.log.foldl holder.observe ⟨held, none⟩ =
        ⟨held ++ (attempts total [step]).map (recordAt key), none⟩ ∧
      (step.result.isSome →
        Sends key (total + confirmed (bytesOf step.op).length step.events) step.after) := by
  have hlog (m : Held) : step.log.foldl holder.observe m = step.events.foldl holding.observe m := by
    have hreturned (m : Held) :
        (step.result.map (Entry.returned step.op)).toList.foldl holder.observe m = m := by
      cases step.result with
      | none => rfl
      | some received => rfl
    rw [Step.log, List.foldl_append, hreturned, List.foldl_cons, Observer.foldl_events]
    rfl
  have hrecords : (attempts total [step]).map (recordAt key) =
      if hands step.events then [recordAt key (total, bytesOf step.op)] else [] := by
    rw [attempts_single]
    split <;> rfl
  have hexec : Exec (handle step.op) step.before step.events step.after step.result := hvalid
  have hstopped : (∀ received, step.result = some received →
      Holds key total (bytesOf step.op) held step.events ∧
        Sends key (total + confirmed (bytesOf step.op).length step.events) step.after) ∧
      (step.result = none → Holds key total (bytesOf step.op) held step.events) :=
    hexec.stopped (handle_holds h step.op)
  rw [hlog, hrecords]
  cases hresult : step.result with
  | none => exact ⟨hstopped.2 hresult, (by simp)⟩
  | some received =>
    obtain ⟨hholds, hlast⟩ := hstopped.1 received hresult
    exact ⟨hholds, fun _ => hlast⟩

theorem run_holds (run : Run openChannel init steps state) (hinit : Sends key 0 init) :
    Sends key (confirmedBy steps) state ∧
      (logOf steps).foldl holder.observe {} = ⟨(attempts 0 steps).map (recordAt key), none⟩ := by
  induction run with
  | start => exact ⟨hinit, rfl⟩
  | @next steps step _ valid finished ih =>
    obtain ⟨hsends, hheld⟩ := ih
    obtain ⟨hlog, hafter⟩ := step_holds hsends valid
    constructor
    · rw [confirmedBy, List.map_append, List.sum_append]
      exact hafter finished
    · rw [logOf_append, List.foldl_append, hheld, hlog, attempts_append, List.map_append,
        Nat.zero_add]

theorem trace_holds (trace : Trace openChannel init steps state) (hinit : Sends key 0 init) :
    heldRecords (logOf steps) = (attempts 0 steps).map (recordAt key) := by
  have hfold : (logOf steps).foldl holder.observe {} =
      ⟨(attempts 0 steps).map (recordAt key), none⟩ := by
    cases trace with
    | resting run => exact (run_holds run hinit).2
    | @inside steps step run valid waiting =>
      obtain ⟨hsends, hheld⟩ := run_holds run hinit
      rw [logOf_append, List.foldl_append, hheld, (step_holds hsends valid).1, attempts_append,
        List.map_append, Nat.zero_add]
  exact congrArg Held.records hfold

theorem sends_fresh (struct : Allocation sizeofChannel) (connection id : Nat) (key : SessionKey) :
    Sends key 0 (freshChannel struct connection id key) := ⟨rfl, rfl, rfl⟩

/-- Two attempts are sealed under one counter when the host has confirmed nothing between them,
or a multiple of `2^64` bytes. -/
theorem same_counter_iff {first second : Nat × Bytes} (h : first.1 ≤ second.1) :
    (recordAt key first).sequence = (recordAt key second).sequence ↔
      2 ^ 64 ∣ second.1 - first.1 := by
  have hmod : first.1 % 2 ^ 64 = second.1 % 2 ^ 64 ↔ 2 ^ 64 ∣ second.1 - first.1 := by
    omega
  rw [← hmod]
  constructor
  · exact fun hsame => leBytes_injective (Nat.mod_lt _ (by decide)) (Nat.mod_lt _ (by decide)) hsame
  · exact fun hsame => congrArg (leBytes 8) hsame

/-- No counter is reused for other bytes exactly when the calls are separated. -/
theorem no_reuse_iff (struct : Allocation sizeofChannel) (connection id : Nat) (key : SessionKey)
    (trace : Trace openChannel (freshChannel struct connection id key) steps state) :
    NoReuse (logOf steps) ↔ Separated steps := by
  have hsorted := (attempts_sorted 0 steps).1
  rw [NoReuse, trace_holds trace (sends_fresh struct connection id key), List.pairwise_map, Separated]
  constructor
  · intro hnone
    refine (hnone.and hsorted).imp ?_
    rintro first second ⟨hsame, hle⟩ hne hdvd
    exact hne (hsame rfl ((same_counter_iff hle).mpr hdvd))
  · intro hseparated
    refine (hseparated.and hsorted).imp ?_
    rintro first second ⟨happart, hle⟩ _ hsequence
    by_contra hne
    exact happart hne ((same_counter_iff hle).mp hsequence)

end Runs

section Examples
open RecordAuthenticity (zeroKey zeroStruct)

def oneThenOther : List Operation := [.egress [1], .egress [2]]

/-- Both sends on a network that takes records whole. -/
def wholeSends : List (Step openChannel) :=
  playRun openChannel wire 0 (freshChannel zeroStruct 0 1 zeroKey) oneThenOther

theorem no_reuse_played : NoReuse (logOf wholeSends) ↔ Separated wholeSends :=
  no_reuse_iff zeroStruct 0 1 zeroKey
    (.resting (run_playRun openChannel wire _ oneThenOther (by decide +kernel)))

/-- The host takes the record and reports an error. -/
def failingWire {β : Type} (time : Nat) : Call β → Option β
  | .ocallEgress _ _ => some (-eio)
  | c => wire time c

def failedSends : List (Step openChannel) :=
  playRun openChannel failingWire 0 (freshChannel zeroStruct 0 1 zeroKey) oneThenOther

theorem counter_reused_after_failure :
    ¬ ∀ (struct : Allocation sizeofChannel) (connection id : Nat) (key : SessionKey)
      (steps : List (Step openChannel)) (state : Channel),
      Trace openChannel (freshChannel struct connection id key) steps state →
        NoReuse (logOf steps) := by
  intro hall
  have hnone : NoReuse (logOf failedSends) := hall zeroStruct 0 1 zeroKey _ _
    (.resting (run_playRun openChannel failingWire _ oneThenOther (by decide +kernel)))
  have hheld : heldRecords (logOf failedSends) =
      [⟨zeroKey, [1], leBytes 8 0⟩, ⟨zeroKey, [2], leBytes 8 0⟩] := by decide +kernel
  rw [NoReuse, hheld] at hnone
  have hsame := (List.pairwise_cons.mp hnone).1 _ (List.mem_singleton.mpr rfl) rfl rfl
  cases hsame

end Examples

end Auntie.Guarantees.RecordReuse
