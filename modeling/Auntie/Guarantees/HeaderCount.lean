import Auntie.Source.Zcash.BlockRecords

/-!
# Meaning of the header count

`zcash_blocks_since_checkpoint` returns the length of the longest prefix of whole headers with
valid proof of work that are linked from the checkpoint on. More bytes never lower the count,
and a counted header determines the counted headers below it up to a collision.
-/

namespace Auntie.Guarantees.HeaderCount
open Auntie.Source Auntie.Source.Blocks Auntie.Chain

section
variable (crates : Crates) (build : Build)

/-- The header passes the checks that need no other header. -/
def HasWork (block : Header) : Prop :=
  correctEquihashSolution crates block = true ∧ passesDifficultyFilter crates build block = true

/-- The first `k` whole headers exist, have valid work, and refer to one another and the first
one to the checkpoint. -/
def Counts (blocks : Bytes) (k : Nat) : Prop :=
  k ≤ (chunksExact blockHeaderLength blocks).length ∧
    (∀ block ∈ (chunksExact blockHeaderLength blocks).take k, HasWork crates build block) ∧
    Links (hashThisBlock crates) hashPrevBlock (checkpointBlockHash build)
      ((chunksExact blockHeaderLength blocks).take k)

variable {crates} {build} {blocks others : Bytes}

theorem linked_iff_links {headers : List Header} :
    Linked (verifyBlockHeader crates build) (checkpointBlockHash build) headers ↔
      (∀ block ∈ headers, HasWork crates build block) ∧
        Links (hashThisBlock crates) hashPrevBlock (checkpointBlockHash build) headers := by
  refine linked_iff fun block digest next => ?_
  rw [verifyBlockHeader_some, HasWork, and_assoc]

theorem counts_iff {k : Nat} :
    Counts crates build blocks k ↔ k ≤ (countedHeaders crates build blocks).length := by
  have hcounted := acceptedPrefix_prefixOf (verifyBlockHeader crates build)
    (checkpointBlockHash build) (chunksExact blockHeaderLength blocks)
  rw [Counts, ← linked_iff_links]
  constructor
  · rintro ⟨hle, hlinked⟩
    have hlength := (hlinked.prefix_acceptedPrefix _ ( List.take_prefix _ _)).length_le
    rwa [List.length_take_of_le hle] at hlength
  · intro hle
    refine ⟨Nat.le_trans hle hcounted.length_le, ?_⟩
    have hshorter : (chunksExact blockHeaderLength blocks).take k <+:
        countedHeaders crates build blocks := by
      refine List.prefix_of_prefix_length_le ( List.take_prefix _ _) hcounted ?_
      exact Nat.le_trans (List.length_take_le _ _) hle
    exact (acceptedPrefix_linked _ _ _).of_prefixOf _ hshorter

/-- As an `i32`. -/
theorem blocksSinceCheckpoint_toInt
    (hfew : (chunksExact blockHeaderLength blocks).length < 2 ^ 31) :
    (zcashBlocksSinceCheckpoint crates build blocks).toInt =
      (countedHeaders crates build blocks).length := by
  rw [zcashBlocksSinceCheckpoint_eq]
  refine Int32.toInt_ofNat_of_lt (Nat.lt_of_le_of_lt ?_ hfew)
  exact (acceptedPrefix_prefixOf _ _ _).length_le

theorem countedHeaders_append (blocks more : Bytes) :
    (countedHeaders crates build blocks).length ≤
      (countedHeaders crates build (blocks ++ more)).length := by
  have hfront : countedHeaders crates build blocks <+:
      chunksExact blockHeaderLength (blocks ++ more) :=
    (acceptedPrefix_prefixOf _ _ _).trans (chunksExact_prefixOf (by decide) blocks more)
  exact ((acceptedPrefix_linked _ _ _).prefix_acceptedPrefix _ hfront).length_le

/-- Two counted chains that share their last header are one. -/
theorem shared_of_last {k : Nat} (h : Counts crates build blocks k)
    (hothers : Counts crates build others k)
    (hlast : (chunksExact blockHeaderLength blocks)[k - 1]? =
      (chunksExact blockHeaderLength others)[k - 1]?) :
    (chunksExact blockHeaderLength blocks).take k = (chunksExact blockHeaderLength others).take k ∨
      ∃ one ∈ (chunksExact blockHeaderLength blocks).take k,
        ∃ other ∈ (chunksExact blockHeaderLength others).take k,
          one ≠ other ∧ hashThisBlock crates one = hashThisBlock crates other := by
  have hlengths : ((chunksExact blockHeaderLength blocks).take k).length =
      ((chunksExact blockHeaderLength others).take k).length := by
    rw [List.length_take_of_le h.1, List.length_take_of_le hothers.1]
  refine eq_of_last hlengths h.2.2.2 hothers.2.2.2 ?_
  rw [List.getLast?_take, List.getLast?_take, hlast]
  by_cases hzero : k = 0
  · rw [if_pos hzero, if_pos hzero]
  · have hindex : k - 1 < (chunksExact blockHeaderLength others).length := by
      have := hothers.1
      omega
    rw [if_neg hzero, if_neg hzero, List.getElem?_eq_getElem hindex]
    rfl

/-- The count is the greatest number of leading headers that are valid and linked; it grows with
the input; and the last of `k` counted headers determines the others, unless two headers with
one hash are among them. -/
theorem header_count (crates : Crates) (build : Build) (blocks : Bytes)
    (hfew : (chunksExact blockHeaderLength blocks).length < 2 ^ 31) :
    ∃ k : Nat, (zcashBlocksSinceCheckpoint crates build blocks).toInt = k ∧
      IsGreatest {n | Counts crates build blocks n} k ∧
      (∀ more, (chunksExact blockHeaderLength (blocks ++ more)).length < 2 ^ 31 →
        zcashBlocksSinceCheckpoint crates build blocks ≤
          zcashBlocksSinceCheckpoint crates build (blocks ++ more)) ∧
      (∀ others, (chunksExact blockHeaderLength others).length < 2 ^ 31 →
        zcashBlocksSinceCheckpoint crates build blocks ≤
          zcashBlocksSinceCheckpoint crates build others →
        (chunksExact blockHeaderLength blocks)[k - 1]? =
          (chunksExact blockHeaderLength others)[k - 1]? →
        (chunksExact blockHeaderLength blocks).take k =
            (chunksExact blockHeaderLength others).take k ∨
          ∃ one ∈ (chunksExact blockHeaderLength blocks).take k,
            ∃ other ∈ (chunksExact blockHeaderLength others).take k,
              one ≠ other ∧ hashThisBlock crates one = hashThisBlock crates other) := by
  have hcount : (zcashBlocksSinceCheckpoint crates build blocks).toInt =
      (countedHeaders crates build blocks).length := blocksSinceCheckpoint_toInt hfew
  have hgreatest : IsGreatest {n | Counts crates build blocks n}
      (countedHeaders crates build blocks).length :=
    ⟨counts_iff.mpr (Nat.le_refl _), fun k hk => counts_iff.mp hk⟩
  refine ⟨_, hcount, hgreatest, ?_, ?_⟩
  · intro more hmore
    rw [Int32.le_iff_toInt_le, hcount, blocksSinceCheckpoint_toInt hmore]
    exact_mod_cast countedHeaders_append blocks more
  · intro others hothers hle hlast
    rw [Int32.le_iff_toInt_le, hcount, blocksSinceCheckpoint_toInt hothers] at hle
    exact shared_of_last hgreatest.1 (counts_iff.mpr (by exact_mod_cast hle)) hlast

end

/-- Three headers are counted. -/
theorem header_count_three :
    ∃ k : Nat, (zcashBlocksSinceCheckpoint zeroCrates zeroBuild (zeroHeaders 3)).toInt = k ∧
      IsGreatest {n | Counts zeroCrates zeroBuild (zeroHeaders 3) n} k := by
  have hfew : (chunksExact blockHeaderLength (zeroHeaders 3)).length < 2 ^ 31 := by
    rw [zeroHeaders, chunksExact_flatMap (by decide)]
    decide
  obtain ⟨k, hcount, hgreatest, -⟩ := header_count zeroCrates zeroBuild (zeroHeaders 3) hfew
  exact ⟨k, hcount, hgreatest⟩

end Auntie.Guarantees.HeaderCount
