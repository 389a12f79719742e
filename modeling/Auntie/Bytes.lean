import Mathlib.Data.List.Basic
import Mathlib.Tactic.Ring

/-!
# Byte strings, fixed-size arrays and little-endian numbers

The vocabulary shared by every buffer of the development: a byte string, an
array type `[u8; n]` that carries its own length, the little-endian reading of a
byte string and its inverse, exact reads from the front of a stream and the
division of a buffer into whole chunks. Nothing here names the program.
-/

namespace Auntie

abbrev Bytes := List UInt8

/-- An array `[u8; n]`: a byte string that carries its length. -/
abbrev FixedBytes (n : Nat) := { bytes : Bytes // bytes.length = n }

namespace FixedBytes

def zero (n : Nat) : FixedBytes n := ⟨List.replicate n 0, List.length_replicate⟩

/-- The sub-array `bytes[start..start + len]`, in range by construction. -/
def slice {n : Nat} (b : FixedBytes n) (start len : Nat) (h : start + len ≤ n) : FixedBytes len :=
  ⟨(b.val.drop start).take len, by
    rw [List.length_take, List.length_drop, b.property]
    omega⟩

/-- The bytes cut, or filled with zeros, to the length of the array. -/
def fit (n : Nat) (bytes : Bytes) : FixedBytes n :=
  ⟨(bytes ++ List.replicate n 0).take n, by
    rw [List.length_take, List.length_append, List.length_replicate]
    omega⟩

def ofBytes (bytes : Bytes) : FixedBytes bytes.length := ⟨bytes, rfl⟩

def reverse {n : Nat} (b : FixedBytes n) : FixedBytes n :=
  ⟨b.val.reverse, by rw [List.length_reverse, b.property]⟩

end FixedBytes

/-- Value of a byte string read in little-endian order. -/
def leValue : Bytes → Nat
  | [] => 0
  | b :: rest => b.toNat + 256 * leValue rest

/-- The `width` low octets of a number, in little-endian order. -/
def leBytes : Nat → Nat → Bytes
  | 0, _ => []
  | width + 1, n => UInt8.ofNat n :: leBytes width (n / 256)

@[simp] theorem leBytes_length (width n : Nat) : (leBytes width n).length = width := by
  induction width generalizing n with
  | zero => rfl
  | succ width ih => simp [leBytes, ih]

theorem leValue_lt (bs : Bytes) : leValue bs < 256 ^ bs.length := by
  induction bs with
  | nil => simp [leValue]
  | cons b rest ih =>
    have hb := b.toNat_lt
    simp only [leValue, List.length_cons, Nat.pow_succ]
    omega

theorem leValue_leBytes (width n : Nat) : leValue (leBytes width n) = n % 256 ^ width := by
  induction width generalizing n with
  | zero => simp [leBytes, leValue, Nat.mod_one]
  | succ width ih =>
    rw [leBytes, leValue, ih, Nat.pow_succ, Nat.mul_comm (256 ^ width), Nat.mod_mul]
    simp

/-- Only the low octets matter. -/
theorem leBytes_mod (width n : Nat) : leBytes width (n % 256 ^ width) = leBytes width n := by
  induction width generalizing n with
  | zero => rfl
  | succ width ih =>
    have hhead : UInt8.ofNat (n % 256 ^ (width + 1)) = UInt8.ofNat n := by
      apply UInt8.toNat_inj.mp
      rw [UInt8.toNat_ofNat', UInt8.toNat_ofNat']
      exact Nat.mod_mod_of_dvd n (Dvd.intro_left (256 ^ width) rfl)
    have htail : n % 256 ^ (width + 1) / 256 = n / 256 % 256 ^ width := by
      rw [Nat.pow_succ, Nat.mul_comm, Nat.mod_mul_right_div_self]
    rw [leBytes, leBytes, hhead, htail, ih]

theorem leBytes_leValue (bs : Bytes) : leBytes bs.length (leValue bs) = bs := by
  induction bs with
  | nil => rfl
  | cons b rest ih =>
    have hb := b.toNat_lt
    have hdiv : (b.toNat + 256 * leValue rest) / 256 = leValue rest := by omega
    have hhead : UInt8.ofNat (b.toNat + 256 * leValue rest) = b := by
      apply UInt8.toNat_inj.mp
      rw [UInt8.toNat_ofNat']
      omega
    simp only [List.length_cons, leValue, leBytes, hdiv, ih, hhead]

/-- `u32::to_le_bytes`. -/
def u32ToLeBytes (n : Nat) : FixedBytes 4 := ⟨leBytes 4 n, leBytes_length 4 n⟩

theorem leValue_u32ToLeBytes (n : Nat) (h : n < 2 ^ 32) : leValue (u32ToLeBytes n).val = n := by
  rw [u32ToLeBytes, leValue_leBytes]
  exact Nat.mod_eq_of_lt (by simpa using h)

/-- `read_exact` on a byte stream: the first `n` bytes and the rest, or an error
when fewer than `n` remain. -/
def readExact (n : Nat) (stream : Bytes) : Option (FixedBytes n × Bytes) :=
  if h : n ≤ stream.length then
    some (⟨stream.take n, by rw [List.length_take, Nat.min_eq_left h]⟩, stream.drop n)
  else none

theorem readExact_some {n : Nat} {stream rest : Bytes} {b : FixedBytes n}
    (h : readExact n stream = some (b, rest)) : stream = b.val ++ rest := by
  unfold readExact at h
  split at h
  · simp only [Option.some.injEq, Prod.mk.injEq] at h
    obtain ⟨rfl, rfl⟩ := h
    exact (List.take_append_drop n stream).symm
  · cases h

theorem readExact_length {n : Nat} {stream rest : Bytes} {b : FixedBytes n}
    (h : readExact n stream = some (b, rest)) : stream.length = n + rest.length := by
  rw [readExact_some h, List.length_append, b.property]

@[simp] theorem readExact_append {n : Nat} (b : FixedBytes n) (rest : Bytes) :
    readExact n (b.val ++ rest) = some (b, rest) := by
  have hle : n ≤ (b.val ++ rest).length := by
    rw [List.length_append, b.property]
    omega
  have htake : (b.val ++ rest).take n = b.val := List.take_left' b.property
  have hdrop : (b.val ++ rest).drop n = rest := List.drop_left' b.property
  unfold readExact
  rw [dif_pos hle]
  simp only [htake, hdrop]

theorem readExact_none {n : Nat} {stream : Bytes} :
    readExact n stream = none ↔ stream.length < n := by
  unfold readExact
  split
  · simp only [reduceCtorEq, false_iff]
    omega
  · simp only [true_iff]
    omega

/-- `count` chunks of `n` bytes from the front of a buffer. -/
def takeChunks (n : Nat) : Nat → Bytes → List (FixedBytes n)
  | 0, _ => []
  | count + 1, bs =>
    match readExact n bs with
    | some (chunk, rest) => chunk :: takeChunks n count rest
    | none => []

/-- `chunks_exact(n)`: every whole chunk, the remainder dropped. -/
def chunksExact (n : Nat) (bs : Bytes) : List (FixedBytes n) :=
  takeChunks n (bs.length / n) bs

theorem chunksExact_append {n : Nat} (hn : 0 < n) (chunk : FixedBytes n) (rest : Bytes) :
    chunksExact n (chunk.val ++ rest) = chunk :: chunksExact n rest := by
  have hlen : (chunk.val ++ rest).length / n = rest.length / n + 1 := by
    rw [List.length_append, chunk.property, Nat.add_div_left _ hn]
  rw [chunksExact, hlen, takeChunks, readExact_append, chunksExact]

theorem chunksExact_short {n : Nat} {bs : Bytes} (h : bs.length < n) : chunksExact n bs = [] := by
  rw [chunksExact, Nat.div_eq_of_lt h, takeChunks]

/-- Chunking undoes the concatenation of arrays. -/
theorem chunksExact_flatMap {n : Nat} (hn : 0 < n) (chunks : List (FixedBytes n)) :
    chunksExact n (chunks.flatMap (·.val)) = chunks := by
  induction chunks with
  | nil => exact chunksExact_short (by simpa using hn)
  | cons chunk rest ih => rw [List.flatMap_cons, chunksExact_append hn, ih]

/-- Bytes behind a buffer add chunks at the end. -/
theorem chunksExact_prefixOf {n : Nat} (hn : 0 < n) (bs more : Bytes) :
    chunksExact n bs <+: chunksExact n (bs ++ more) := by
  generalize hlength : bs.length = length
  induction length using Nat.strong_induction_on generalizing bs with
  | _ length ih =>
    cases hread : readExact n bs with
    | none =>
      rw [chunksExact_short (readExact_none.mp hread)]
      exact List.nil_prefix
    | some found =>
      obtain ⟨chunk, rest⟩ := found
      rw [readExact_some hread, List.append_assoc, chunksExact_append hn, chunksExact_append hn]
      have hshorter : rest.length < length := by
        have := readExact_length hread
        omega
      exact (List.prefix_cons_inj chunk).mpr (ih _ hshorter rest rfl)

theorem takeChunks_length (n : Nat) : ∀ (count : Nat) (bs : Bytes), n * count ≤ bs.length →
    (takeChunks n count bs).length = count
  | 0, _, _ => rfl
  | count + 1, bs, h => by
    have hmul : n * (count + 1) = n * count + n := Nat.mul_succ n count
    cases hr : readExact n bs with
    | none =>
      have := readExact_none.mp hr
      omega
    | some found =>
      obtain ⟨chunk, rest⟩ := found
      have hlen := readExact_length hr
      simp only [takeChunks, hr, List.length_cons]
      rw [takeChunks_length n count rest (by omega)]

theorem chunksExact_length (n : Nat) (bs : Bytes) : (chunksExact n bs).length = bs.length / n :=
  takeChunks_length n _ bs (Nat.mul_div_le bs.length n)

end Auntie
