import Auntie.Bytes
import Mathlib.Data.List.Basic

/-!
# Lines of hexadecimal text

Texts as lists of characters: bytes written with two digits each and read back, the lines of a
text, and the parts of a line between separators of two characters. Reading hexadecimal digits
skips white space between bytes. Nothing here names the program.
-/

namespace Auntie.Text

/-- Two digits, lower case. -/
def hexOf (b : UInt8) : List Char := [Nat.digitChar (b.toNat / 16), Nat.digitChar (b.toNat % 16)]

def toHex (bytes : Bytes) : List Char := bytes.flatMap hexOf

def hexValue (c : Char) : Option Nat :=
  if 48 ≤ c.toNat ∧ c.toNat ≤ 57 then some (c.toNat - 48)
  else if 97 ≤ c.toNat ∧ c.toNat ≤ 102 then some (c.toNat - 87)
  else if 65 ≤ c.toNat ∧ c.toNat ≤ 70 then some (c.toNat - 55)
  else none

/-- The white space of ASCII. -/
def isSpace (c : Char) : Bool := c.toNat = 32 || (9 ≤ c.toNat && c.toNat ≤ 13)

/-- `bytes.fromhex`. -/
def fromHex : List Char → Option Bytes
  | [] => some []
  | [c] => if isSpace c then some [] else none
  | c :: d :: rest =>
    if isSpace c then fromHex (d :: rest)
    else
      match hexValue c, hexValue d with
      | some high, some low => (fromHex rest).map fun bytes => UInt8.ofNat (16 * high + low) :: bytes
      | _, _ => none

/-- Each digit reads back as its own value, and is no white space. -/
theorem hexValue_digitChar {n : Nat} (h : n < 16) :
    hexValue n.digitChar = some n ∧ isSpace n.digitChar = false := by
  rcases n with _ | _ | _ | _ | _ | _ | _ | _ | _ | _ | _ | _ | _ | _ | _ | _ | n
  all_goals first | decide | omega

theorem fromHex_hexOf (b : UInt8) (rest : List Char) :
    fromHex (hexOf b ++ rest) = (fromHex rest).map (b :: ·) := by
  have hb := b.toNat_lt
  obtain ⟨hhigh, hspace⟩ := hexValue_digitChar (n := b.toNat / 16) (by omega)
  obtain ⟨hlow, -⟩ := hexValue_digitChar (n := b.toNat % 16) (by omega)
  have hbyte : UInt8.ofNat (16 * (b.toNat / 16) + b.toNat % 16) = b := by
    rw [Nat.div_add_mod]
    exact UInt8.ofNat_toNat
  simp only [hexOf, List.cons_append, List.nil_append, fromHex, hspace, hhigh, hlow, hbyte,
    Bool.false_eq_true, ite_false]

/-- What is written reads back, also with what reads as nothing behind it. -/
theorem fromHex_toHex (bytes : Bytes) {back : List Char} (hback : fromHex back = some []) :
    fromHex (toHex bytes ++ back) = some bytes := by
  induction bytes with
  | nil => exact hback
  | cons b bytes ih =>
    rw [toHex, List.flatMap_cons, List.append_assoc, fromHex_hexOf]
    exact congrArg (Option.map (b :: ·)) ih

/-- No separator of a line, or of a text, is a digit. -/
theorem mem_toHex {bytes : Bytes} {c : Char} (h : c ∈ toHex bytes) : (hexValue c).isSome := by
  obtain ⟨b, -, hc⟩ := List.mem_flatMap.mp h
  have hb := b.toNat_lt
  simp only [hexOf, List.mem_cons, List.not_mem_nil, or_false] at hc
  rcases hc with rfl | rfl
  · rw [(hexValue_digitChar (by omega)).1]
    rfl
  · rw [(hexValue_digitChar (by omega)).1]
    rfl

theorem not_mem_toHex {bytes : Bytes} {c : Char} (h : hexValue c = none) : c ∉ toHex bytes := by
  intro hmem
  have hsome := mem_toHex hmem
  rw [h] at hsome
  cases hsome

/-- The lines of a text, each with the character that ends it. -/
def readlines : List Char → List (List Char)
  | [] => []
  | c :: rest =>
    if c = '\n' then [c] :: readlines rest
    else
      match readlines rest with
      | [] => [[c]]
      | line :: lines => (c :: line) :: lines

theorem readlines_line {line : List Char} (h : '\n' ∉ line) (rest : List Char) :
    readlines (line ++ '\n' :: rest) = (line ++ ['\n']) :: readlines rest := by
  induction line with
  | nil => simp [readlines]
  | cons c line ih =>
    have hc : c ≠ '\n' := fun hsame => h (by simp [hsame])
    have hline := ih fun hmem => h (List.mem_cons_of_mem c hmem)
    simp only [List.cons_append, readlines, if_neg hc, hline]

theorem readlines_flatMap {α : Type} (lineOf : α → List Char) (h : ∀ a, '\n' ∉ lineOf a)
    (entries : List α) : readlines (entries.flatMap fun a => lineOf a ++ ['\n']) =
      entries.map fun a => lineOf a ++ ['\n'] := by
  induction entries with
  | nil => rfl
  | cons a entries ih =>
    rw [List.flatMap_cons, List.append_assoc, List.singleton_append, readlines_line (h a), ih,
      List.map_cons]

/-- Line ends as a text file is read: a carriage return, alone or before a newline, is one. -/
def universalNewlines : List Char → List Char
  | [] => []
  | ['\r'] => ['\n']
  | '\r' :: d :: rest =>
    if d = '\n' then universalNewlines (d :: rest) else '\n' :: universalNewlines (d :: rest)
  | c :: rest => c :: universalNewlines rest

theorem universalNewlines_plain {text : List Char} (h : '\r' ∉ text) :
    universalNewlines text = text := by
  induction text with
  | nil => rfl
  | cons c text ih =>
    have hc : c ≠ '\r' := fun hsame => h (by simp [hsame])
    have htext := ih fun hmem => h (List.mem_cons_of_mem c hmem)
    rw [universalNewlines.eq_4 c text (fun hsame _ => hc hsame) (fun _ _ hsame _ => hc hsame),
      htext]

/-- The parts of a text between the separators `first second`. -/
def splitPair (first second : Char) : List Char → List (List Char)
  | [] => [[]]
  | [c] => [[c]]
  | c :: d :: rest =>
    if c = first ∧ d = second then [] :: splitPair first second rest
    else
      match splitPair first second (d :: rest) with
      | [] => [[c]]
      | part :: parts => (c :: part) :: parts

variable {first second : Char}

theorem splitPair_plain {part : List Char} (h : first ∉ part) :
    splitPair first second part = [part] := by
  induction part with
  | nil => rfl
  | cons c part ih =>
    have hc : c ≠ first := fun hsame => h (by simp [hsame])
    have hpart := ih fun hmem => h (List.mem_cons_of_mem c hmem)
    cases part with
    | nil => rfl
    | cons d part => rw [splitPair, if_neg fun hsame => hc hsame.1, hpart]

theorem splitPair_part {part : List Char} (h : first ∉ part) (rest : List Char) :
    splitPair first second (part ++ first :: second :: rest) =
      part :: splitPair first second rest := by
  induction part with
  | nil => rw [List.nil_append, splitPair, if_pos ⟨rfl, rfl⟩]
  | cons c part ih =>
    have hc : c ≠ first := fun hsame => h (by simp [hsame])
    have hpart := ih fun hmem => h (List.mem_cons_of_mem c hmem)
    cases part with
    | nil =>
      rw [List.nil_append] at hpart
      rw [List.cons_append, List.nil_append, splitPair, if_neg fun hsame => hc hsame.1, hpart]
    | cons d part =>
      rw [List.cons_append] at hpart
      rw [List.cons_append, List.cons_append, splitPair, if_neg fun hsame => hc hsame.1, hpart]

end Auntie.Text
