import Auntie.Source.Zcash.BlockRecords

/-!
# Meaning of the burial depth

`zcash_authorized_and_buried` returns `m - j` on the verified records
`R1, ..., Rm` of its input, `Rj` the first of them that lists the transaction,
and `0` when none does. The verified records are the longest prefix of whole
records whose headers are valid and linked from the checkpoint on, cut just
after the first transaction list that does not hash to its Merkle root. A list
without transactions is the panic described in `ChainVerifierSafety`; fewer than
`2^31` records keep the `i32` counter from wrapping.
-/

namespace Auntie.Guarantees.BurialDepth
open Auntie.Source Auntie.Source.Blocks Auntie.Chain

section
variable (crates : Crates) (build : Build)

/-- The depth never exceeds the number of records present. -/
theorem burialDepth_le (txid : Digest) (blocks : Bytes) :
    burialDepth crates build txid blocks ≤ (parseRecords blocks).length :=
  Nat.le_trans (depthAfterFirst_le _ _) (verifiedRecords_prefixOf crates build blocks).length_le

/-- A positive depth is reached from a consistent block that lists the transaction:
only the last verified record can be inconsistent. -/
theorem burialDepth_pos {txid : Digest} {blocks : Bytes}
    (h : 0 < burialDepth crates build txid blocks) :
    ∃ before r after, verifiedRecords crates build blocks = before ++ r :: after ∧
      txid ∈ r.txids ∧ transactionsMerkleRoot crates r.txids = some (hashMerkleRoot r.header) ∧
      after.length = burialDepth crates build txid blocks := by
  obtain ⟨before, r, after, hsplit, hlisted, hlength⟩ := depthAfterFirst_pos _ h
  have hafter : after ≠ [] := by
    rintro rfl
    rw [List.length_nil] at hlength
    exact absurd hlength (Nat.ne_of_lt h)
  have hconsistent := cutAfter_defect _ hsplit hafter
  refine ⟨before, r, after, hsplit, by simpa using hlisted, ?_, hlength⟩
  simpa [Record.consistent] using hconsistent

/-- Exact meaning of the returned depth, with its two readings: what a positive
depth proves about the block that lists the transaction, and what an honestly
encoded chain yields. -/
theorem authorized_and_buried_depth (txid : Digest) (blocks : Bytes)
    (hnonempty : ∀ r ∈ verifiedRecords crates build blocks, r.txids ≠ [])
    (hrecords : (parseRecords blocks).length < 2 ^ 31) :
    ∃ count : Int32,
      (zcashAuthorizedAndBuried crates build txid blocks).outcome = .returned count ∧
      count.toInt =
        (match (verifiedRecords crates build blocks).findIdx? (fun r => r.txids.contains txid) with
        | some j => (verifiedRecords crates build blocks).length - (j + 1)
        | none => 0 : Nat) ∧
      (1 ≤ count.toInt → ∃ before r after,
        verifiedRecords crates build blocks = before ++ r :: after ∧ txid ∈ r.txids ∧
        transactionsMerkleRoot crates r.txids = some (hashMerkleRoot r.header) ∧
        Linked (verifyBlockHeader crates build) (checkpointBlockHash build)
          ((before ++ r :: after).map Record.header) ∧
        count.toInt ≤ after.length) ∧
      (∀ before r after, blocks = (before ++ r :: after).flatMap Record.encode →
        (∀ other ∈ before ++ r :: after, other.txids.length < 2 ^ 32 ∧
          transactionsMerkleRoot crates other.txids = some (hashMerkleRoot other.header)) →
        Linked (verifyBlockHeader crates build) (checkpointBlockHash build)
          ((before ++ r :: after).map Record.header) →
        (∀ other ∈ before, txid ∉ other.txids) → txid ∈ r.txids →
        count.toInt = after.length) := by
  have hempty : ¬ ∃ r ∈ verifiedRecords crates build blocks, r.txids = [] := by
    rintro ⟨r, hr, hnil⟩
    exact hnonempty r hr hnil
  have hdepth : burialDepth crates build txid blocks < 2 ^ 31 :=
    Nat.lt_of_le_of_lt (burialDepth_le crates build txid blocks) hrecords
  have hcount : (Int32.ofNat (burialDepth crates build txid blocks)).toInt =
      (burialDepth crates build txid blocks : Int) := Int32.toInt_ofNat_of_lt hdepth
  refine ⟨Int32.ofNat (burialDepth crates build txid blocks), ?_, hcount, ?_, ?_⟩
  · rw [zcashAuthorizedAndBuried_outcome, if_neg hempty]
  · intro hpos
    rw [hcount] at hpos ⊢
    obtain ⟨before, r, after, hsplit, hlisted, hroot, hlength⟩ :=
      burialDepth_pos crates build (show 0 < burialDepth crates build txid blocks by omega)
    have hlinked := verifiedRecords_linked crates build blocks
    rw [hsplit] at hlinked
    refine ⟨before, r, after, hsplit, hlisted, hroot, ?_, by omega⟩
    exact (linked_map _ Record.header _ _).mpr hlinked
  · intro before r after hblocks hgood hlinked hbefore hlisted
    have hread := verifiedRecords_honest crates build (fun other hother => (hgood other hother).1)
      ((linked_map _ Record.header _ _).mp hlinked) (fun other hother => (hgood other hother).2)
    rw [hcount, burialDepth, hblocks, hread]
    congr 1
    exact depthAfterFirst_append _ (fun other hother => by simpa using hbefore other hother)
      (by simpa using hlisted)

end

/-- On a chain of three blocks that all list the transaction, the depth is two. -/
theorem authorized_and_buried_depth_three :
    ∃ count : Int32, (zcashAuthorizedAndBuried zeroCrates zeroBuild (FixedBytes.zero 32)
      ((List.replicate 3 zeroRecord).flatMap Record.encode)).outcome = .returned count ∧
      count.toInt = 2 := by
  have hread := verifiedRecords_zero 3
  obtain ⟨count, houtcome, hdepth, -⟩ :=
    authorized_and_buried_depth zeroCrates zeroBuild (FixedBytes.zero 32)
      ((List.replicate 3 zeroRecord).flatMap Record.encode)
      (by
        intro r hr
        rw [hread] at hr
        rw [List.eq_of_mem_replicate hr, zeroRecord]
        simp)
      (by
        rw [parseRecords_encode _ (fun r hr => by rw [List.eq_of_mem_replicate hr]; decide)]
        decide)
  refine ⟨count, houtcome, ?_⟩
  rw [hdepth, hread]
  rfl

end Auntie.Guarantees.BurialDepth
