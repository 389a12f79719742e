import Auntie.Guarantees.BurialDepth
import Auntie.Guarantees.HeaderCount
import Auntie.Source.Common.Zcash

/-!
# What a chain has to show

A settlement waits for its transaction to be buried, a refund for the checkpoint to be old. The
enclaves compare an `i32` with a constant of the build; that it passes says something of the
blocks, also where the `i32` has wrapped.
-/

namespace Auntie.Guarantees.ChainEvidence
open Auntie.Source Auntie.Source.Blocks Auntie.Chain
variable {dep : Deployment} {blocks : Bytes}

/-- The blocks list the transaction, under as many valid blocks as a settlement waits for. -/
def Buried (dep : Deployment) (txid : Digest) (blocks : Bytes) : Prop :=
  ∃ before r after, verifiedRecords dep.crates dep.build blocks = before ++ r :: after ∧
    txid ∈ r.txids ∧ transactionsMerkleRoot dep.crates r.txids = some (hashMerkleRoot r.header) ∧
    Linked (verifyBlockHeader dep.crates dep.build) (checkpointBlockHash dep.build)
      ((before ++ r :: after).map Record.header) ∧
    dep.build.settleDelayBlocks ≤ after.length

/-- As many valid headers follow the checkpoint as a refund waits for. -/
def Aged (dep : Deployment) (blocks : Bytes) : Prop :=
  ∃ k : Nat, HeaderCount.Counts dep.crates dep.build blocks k ∧ dep.build.refundDelayBlocks ≤ k

/-- A count that has wrapped is below the number it stands for. -/
theorem toInt_ofNat_le {count : Nat} (h : 0 ≤ (Int32.ofNat count).toInt) :
    (Int32.ofNat count).toInt ≤ count := by
  rw [Int32.toInt_ofNat'] at h ⊢
  have hsize : ((Int32.size : Nat) : Int) = 4294967296 := rfl
  rw [Int.bmod_def, hsize] at h ⊢
  split at h
  · rename_i hsmall
    rw [if_pos hsmall]
    omega
  · omega

theorem buried_of_count {txid : Digest} {count : Int32} (hdelay : 0 < dep.build.settleDelayBlocks)
    (houtcome : (zcashAuthorizedAndBuried dep.crates dep.build txid blocks).outcome =
      .returned count)
    (hchain : chainError dep.build.settleDelayBlocks count = none) : Buried dep txid blocks := by
  obtain ⟨hpositive, hpasses⟩ := chainError_none.mp hchain
  rw [zcashAuthorizedAndBuried_outcome] at houtcome
  split at houtcome
  · cases houtcome
  · cases houtcome
    have hle := toInt_ofNat_le hpositive
    have hdepth : 0 < burialDepth dep.crates dep.build txid blocks := by omega
    obtain ⟨before, r, after, hsplit, hlisted, hroot, hlength⟩ :=
      BurialDepth.burialDepth_pos dep.crates dep.build hdepth
    have hlinked := verifiedRecords_linked dep.crates dep.build blocks
    rw [hsplit] at hlinked
    refine ⟨before, r, after, hsplit, hlisted, hroot, ?_, by omega⟩
    exact (linked_map _ Record.header _ _).mpr hlinked

theorem aged_of_count (hchain : chainError dep.build.refundDelayBlocks
    (zcashBlocksSinceCheckpoint dep.crates dep.build blocks) = none) : Aged dep blocks := by
  obtain ⟨hpositive, hpasses⟩ := chainError_none.mp hchain
  rw [zcashBlocksSinceCheckpoint_eq] at hpositive hpasses
  have hle := toInt_ofNat_le hpositive
  exact ⟨_, HeaderCount.counts_iff.mpr (Nat.le_refl _), by omega⟩

end Auntie.Guarantees.ChainEvidence
