import Auntie.Source.Zcash.BlockRecords

/-!
# Octets 140..142 of a counted header

The Equihash check reads octets 0..139 and 143..1486, the link check octets 4..35.
The compactSize of the solution, `fd 40 05` in every real header, enters only the
double hash, and the hash is compared with the target of the difficulty filter. So
one Equihash solution yields `2^24` headers, each with a fresh try at the filter.

`size_octets_pinned_iff` states exactly when a choice of fields and solution admits
no header but the canonical one, and when it admits at most one header.
-/

namespace Auntie.Guarantees.HeaderEncoding
open Auntie.Source Auntie.Source.Blocks Auntie.Chain

/-- A header from its fields and nonce, the three octets before the solution, and
the solution. -/
def assemble (fields : FixedBytes 140) (size : FixedBytes 3) (solution : FixedBytes 1344) :
    Header :=
  ⟨fields.val ++ (size.val ++ solution.val), by
    simp only [List.length_append, fields.property, size.property, solution.property]⟩

/-- The compactSize encoding of 1344. -/
def canonicalSize : FixedBytes 3 := ⟨[0xfd, 0x40, 0x05], rfl⟩

section Slices

theorem slice_left {m n start len : Nat} {head : FixedBytes m} {tail : Bytes}
    (htotal : (head.val ++ tail).length = n) (h : start + len ≤ m) :
    (FixedBytes.slice ⟨head.val ++ tail, htotal⟩ start len (by
      rw [← htotal, List.length_append, head.property]
      omega)) = head.slice start len h := by
  apply Subtype.ext
  have hlength := head.property
  simp only [FixedBytes.slice]
  rw [List.drop_append_of_le_length (by omega), List.take_append_of_le_length]
  rw [List.length_drop]
  omega

theorem assemble_surjective (h : Header) :
    ∃ fields size solution, h = assemble fields size solution := by
  refine ⟨h.slice 0 140 (by decide), h.slice 140 3 (by decide), h.slice 143 1344 (by decide), ?_⟩
  apply Subtype.ext
  have hlength := h.property
  have htail : (h.val.drop 143).take 1344 = h.val.drop 143 := by
    apply List.take_of_length_le
    rw [List.length_drop, hlength]
    decide
  simp only [assemble, FixedBytes.slice, List.drop_zero, htail]
  have hdrop : h.val.drop 143 = (h.val.drop 140).drop 3 := by rw [List.drop_drop]
  rw [hdrop, List.take_append_drop, List.take_append_drop]

variable (crates : Crates) (fields : FixedBytes 140) (size : FixedBytes 3)
  (solution : FixedBytes 1344)

theorem assemble_prev : hashPrevBlock (assemble fields size solution) =
    fields.slice 4 32 (by decide) :=
  slice_left _ (by decide)

theorem assemble_solution :
    ((assemble fields size solution).slice 143 1344 (by decide)).val = solution.val := by
  have hfields := fields.property
  have hsize := size.property
  have hsolution := solution.property
  simp only [FixedBytes.slice, assemble, ← List.append_assoc]
  rw [List.drop_left' (by rw [List.length_append, hfields, hsize]),
    List.take_of_length_le (by rw [hsolution])]

/-- The Equihash check does not read the size octets. -/
theorem assemble_equihash : correctEquihashSolution crates (assemble fields size solution) =
    crates.isValidSolution 200 9 (fields.slice 0 108 (by decide)).val
      (fields.slice 108 32 (by decide)).val solution.val := by
  rw [correctEquihashSolution, assemble_solution]
  have hinput : (assemble fields size solution).slice 0 108 (by decide) =
      fields.slice 0 108 (by decide) := slice_left _ (by decide)
  have hnonce : (assemble fields size solution).slice 108 32 (by decide) =
      fields.slice 108 32 (by decide) := slice_left _ (by decide)
  rw [hinput, hnonce]

theorem assemble_verifies (build : Build) (previous : Digest) :
    (verifyBlockHeader crates build (assemble fields size solution) previous).isSome ↔
      (crates.isValidSolution 200 9 (fields.slice 0 108 (by decide)).val
        (fields.slice 108 32 (by decide)).val solution.val = true ∧
      fields.slice 4 32 (by decide) = previous) ∧
      passesDifficultyFilter crates build (assemble fields size solution) = true := by
  rw [Option.isSome_iff_exists]
  simp only [verifyBlockHeader_some, assemble_equihash, assemble_prev]
  constructor
  · rintro ⟨digest, hsolution, hfilter, hlink, -⟩
    exact ⟨⟨hsolution, hlink⟩, hfilter⟩
  · rintro ⟨⟨hsolution, hlink⟩, hfilter⟩
    exact ⟨_, hsolution, hfilter, hlink, rfl⟩

end Slices

/-- The headers that count: those of `zcash_blocks_since_checkpoint` and those of the
verified records of `zcash_authorized_and_buried`. -/
def Counted (crates : Crates) (build : Build) (blocks : Bytes) (h : Header) : Prop :=
  h ∈ countedHeaders crates build blocks ∨
    h ∈ (verifiedRecords crates build blocks).map Record.header

/-- Which octets 140..142 the verifiers pin. A counted header is made of fields, size
octets and a solution, and was accepted after some digest; for given fields and
solution only the canonical size octets are accepted exactly when the Equihash check
or the link refuses them all or no other size octets bring the hash under the target,
and at most one choice is accepted exactly when they refuse them all or no two choices
bring the hash under the target. -/
theorem size_octets_pinned_iff (crates : Crates) (build : Build) :
    (∀ blocks h, Counted crates build blocks h → ∃ fields size solution previous,
      h = assemble fields size solution ∧
      (verifyBlockHeader crates build (assemble fields size solution) previous).isSome) ∧
    ∀ (fields : FixedBytes 140) (solution : FixedBytes 1344) (previous : Digest),
      ((∀ size, (verifyBlockHeader crates build (assemble fields size solution) previous).isSome →
          size = canonicalSize) ↔
        (crates.isValidSolution 200 9 (fields.slice 0 108 (by decide)).val
          (fields.slice 108 32 (by decide)).val solution.val = true →
        fields.slice 4 32 (by decide) = previous →
        ∀ size, size ≠ canonicalSize →
          passesDifficultyFilter crates build (assemble fields size solution) = false)) ∧
      ((∀ size other,
          (verifyBlockHeader crates build (assemble fields size solution) previous).isSome →
          (verifyBlockHeader crates build (assemble fields other solution) previous).isSome →
          size = other) ↔
        (crates.isValidSolution 200 9 (fields.slice 0 108 (by decide)).val
          (fields.slice 108 32 (by decide)).val solution.val = true →
        fields.slice 4 32 (by decide) = previous →
        ∀ size other, size ≠ other →
          passesDifficultyFilter crates build (assemble fields size solution) = false ∨
          passesDifficultyFilter crates build (assemble fields other solution) = false)) := by
  refine ⟨?_, fun fields solution previous => ⟨?_, ?_⟩⟩
  · intro blocks h hcounted
    obtain ⟨fields, size, solution, rfl⟩ := assemble_surjective h
    suffices haccepted : ∃ previous,
        (verifyBlockHeader crates build (assemble fields size solution) previous).isSome by
      obtain ⟨previous, hsome⟩ := haccepted
      exact ⟨fields, size, solution, previous, rfl, hsome⟩
    rcases hcounted with hheader | hrecord
    · exact (acceptedPrefix_linked _ _ _).accepted _ _ hheader
    · have hlinked := (linked_map (verifyBlockHeader crates build) Record.header _ _).mpr
        (verifiedRecords_linked crates build blocks)
      exact hlinked.accepted _ _ hrecord
  · simp only [assemble_verifies]
    constructor
    · intro hpinned hsolution hlink size hsize
      by_contra hfilter
      exact hsize (hpinned size ⟨⟨hsolution, hlink⟩, by simpa using hfilter⟩)
    · rintro hfilter size ⟨⟨hsolution, hlink⟩, hpasses⟩
      by_contra hsize
      rw [hfilter hsolution hlink size hsize] at hpasses
      cases hpasses
  · simp only [assemble_verifies]
    constructor
    · intro hone hsolution hlink size other hdistinct
      by_contra hboth
      simp only [not_or, Bool.not_eq_false] at hboth
      exact hdistinct (hone size other ⟨⟨hsolution, hlink⟩, hboth.1⟩ ⟨⟨hsolution, hlink⟩, hboth.2⟩)
    · rintro hfilter size other ⟨⟨hsolution, hlink⟩, hpasses⟩ ⟨-, hother⟩
      by_contra hdistinct
      rcases hfilter hsolution hlink size other hdistinct with hfalse | hfalse
      · rw [hfalse] at hpasses
        cases hpasses
      · rw [hfalse] at hother
        cases hother

/-- Two headers that differ in octet 140 alone, one of them not canonical, are both
accepted, and the second is counted on the byte string it makes up. -/
theorem size_octets_free :
    ∃ (fields : FixedBytes 140) (size : FixedBytes 3) (solution : FixedBytes 1344),
      size ≠ canonicalSize ∧
      (verifyBlockHeader zeroCrates zeroBuild (assemble fields canonicalSize solution)
        (FixedBytes.zero 32)).isSome ∧
      (verifyBlockHeader zeroCrates zeroBuild (assemble fields size solution)
        (FixedBytes.zero 32)).isSome ∧
      Counted zeroCrates zeroBuild (assemble fields size solution).val
        (assemble fields size solution) := by
  have hvalue : leValue (FixedBytes.zero 32).val = 0 := by decide
  have haccept (size : FixedBytes 3) :
      (verifyBlockHeader zeroCrates zeroBuild
        (assemble (FixedBytes.zero 140) size (FixedBytes.zero 1344)) (FixedBytes.zero 32)).isSome := by
    rw [assemble_verifies]
    refine ⟨⟨rfl, zero_slice _ _ _ _⟩, ?_⟩
    simp [passesDifficultyFilter, hashThisBlock, sha256d, zeroCrates, hvalue, difficultyTarget,
      zeroBuild, Build.defaults]
  refine ⟨FixedBytes.zero 140, ⟨[0, 0x40, 0x05], rfl⟩, FixedBytes.zero 1344, by decide,
    haccept _, haccept _, Or.inl ?_⟩
  obtain ⟨digest, hdigest⟩ := Option.isSome_iff_exists.mp (haccept ⟨[0, 0x40, 0x05], rfl⟩)
  have hchunks := chunksExact_append (n := blockHeaderLength) (by decide)
    (assemble (FixedBytes.zero 140) ⟨[0, 0x40, 0x05], rfl⟩ (FixedBytes.zero 1344)) []
  rw [List.append_nil] at hchunks
  rw [countedHeaders, hchunks, zeroCheckpoint, acceptedPrefix, hdigest]
  exact List.mem_cons_self

end Auntie.Guarantees.HeaderEncoding
