import Auntie.Bytes

/-!
# Concatenated segments cut by their offsets

A payload that holds several byte strings one after the other, and the running
offsets at which they start. Cutting the payload from one offset to the next gives
the segments back; the last one ends with the payload. Nothing here names the
program.
-/

namespace Auntie.Segments
variable {α : Type}

/-- Where each segment starts when the first one starts at `start`. -/
def offsetsFrom (start : Nat) : List (List α) → List Nat
  | [] => []
  | segment :: rest => start :: offsetsFrom (start + segment.length) rest

@[simp] theorem offsetsFrom_length (start : Nat) (segments : List (List α)) :
    (offsetsFrom start segments).length = segments.length := by
  induction segments generalizing start with
  | nil => rfl
  | cons segment rest ih => simp [offsetsFrom, ih]

theorem offsetsFrom_getElem (start : Nat) (segments : List (List α)) (i : Nat)
    (h : i < (offsetsFrom start segments).length) :
    (offsetsFrom start segments)[i] = start + (segments.take i).flatten.length := by
  induction segments generalizing start i with
  | nil => simp [offsetsFrom] at h
  | cons segment rest ih =>
    cases i with
    | zero => simp [offsetsFrom]
    | succ i =>
      simp only [offsetsFrom, List.getElem_cons_succ, List.take_succ_cons, List.flatten_cons,
        List.length_append]
      rw [ih]
      omega

theorem offset_le (segments : List (List α)) (i : Nat) :
    (segments.take i).flatten.length ≤ segments.flatten.length := by
  rw [← List.take_append_drop i segments, List.flatten_append, List.length_append,
    List.take_append_drop]
  exact Nat.le_add_right _ _

/-- A segment ends where the next one starts. -/
theorem offset_succ (segments : List (List α)) (i : Nat) (h : i < segments.length) :
    (segments.take (i + 1)).flatten.length =
      (segments.take i).flatten.length + segments[i].length := by
  rw [List.take_succ_eq_append_getElem h, List.flatten_append, List.length_append]
  simp

theorem offset_last (segments : List (List α)) (i : Nat) (h : segments.length = i + 1) :
    segments.flatten.length = (segments.take i).flatten.length + segments[i].length := by
  rw [← offset_succ segments i (by omega), List.take_of_length_le (by omega)]

/-- From the offset of a segment on. -/
theorem drop_offset (segments : List (List α)) (i : Nat) :
    segments.flatten.drop (segments.take i).flatten.length = (segments.drop i).flatten := by
  have hsplit : segments.flatten = (segments.take i).flatten ++ (segments.drop i).flatten := by
    rw [← List.flatten_append, List.take_append_drop]
  rw [hsplit, List.drop_left]

/-- Cutting at the offset of a segment gives it back. -/
theorem cut_segment (segments : List (List α)) (i : Nat) (h : i < segments.length) :
    (segments.flatten.drop (segments.take i).flatten.length).take segments[i].length =
      segments[i] := by
  rw [drop_offset, List.drop_eq_getElem_cons h, List.flatten_cons, List.take_left]

/-- An entry of a table whose entries all have the same width. -/
theorem cut_entry {β : Type} {width : Nat} (entry : β → List α)
    (hwidth : ∀ b, (entry b).length = width) (table : List β) (i : Nat) (h : i < table.length) :
    ((table.flatMap entry).drop (width * i)).take width = entry table[i] := by
  have hstart : ((table.map entry).take i).flatten.length = width * i := by
    have hall : ((table.map entry).take i).map List.length = List.replicate i width := by
      apply List.ext_getElem
      · simp [h.le]
      · simp [hwidth]
    rw [List.length_flatten, hall, List.sum_replicate_nat, Nat.mul_comm]
  have hcut := cut_segment (table.map entry) i (by simpa using h)
  rwa [hstart, List.getElem_map, hwidth] at hcut

theorem table_length {β : Type} {width : Nat} (entry : β → List α)
    (hwidth : ∀ b, (entry b).length = width) (table : List β) :
    (table.flatMap entry).length = width * table.length := by
  rw [List.length_flatMap, List.map_congr_left fun b _ => hwidth b]
  simp [Nat.mul_comm]

end Auntie.Segments
