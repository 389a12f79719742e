import Auntie.Merkle
import Auntie.Guarantees.BurialDepth

/-!
# What a Merkle root binds

`transactions_merkle_root` reduces a list of transaction ids layer by layer. Two lists that
take the same number of rounds to the same root hold the same ids, whatever nodes were paired
with themselves on the way, or two of the inputs hashed collide.
-/

namespace Auntie.Guarantees.MerkleBinding
open Auntie.Source Auntie.Source.Blocks Auntie.Merkle

section
variable (crates : Crates)

/-- The rounds of the `while` loop of `transactions_merkle_root`. -/
def merkleRounds (txids : List Digest) : Nat :=
  if _h : 1 < txids.length then merkleRounds (merkleLayer crates txids) + 1 else 0
termination_by txids.length
decreasing_by
  rw [merkleLayer_length]
  omega

def hashPair (nodes : Digest × Digest) : Digest := sha256d crates [nodes.1.val, nodes.2.val]

/-- The inputs that the reduction of a list hashes. -/
def hashedInputs (txids : List Digest) : List Bytes :=
  (hashed (hashPair crates) (merkleRounds crates txids) txids).map fun nodes =>
    nodes.1.val ++ nodes.2.val

/-- Two different inputs of 64 bytes, one of each reduction, have one hash. -/
def InputsCollide (first second : List Digest) : Prop :=
  ∃ one ∈ hashedInputs crates first, ∃ other ∈ hashedInputs crates second,
    one.length = 64 ∧ other.length = 64 ∧ one ≠ other ∧ sha256d crates [one] = sha256d crates [other]

theorem merkleLayer_eq : merkleLayer crates = layer (hashPair crates) := by
  funext nodes
  induction nodes using merkleLayer.induct with
  | case1 left right rest ih => simp [merkleLayer, layer, pairs, hashPair, ih]
  | case2 left => simp [merkleLayer, layer, pairs, hashPair]
  | case3 => simp [merkleLayer, layer, pairs]

theorem merkleRounds_eq (txids : List Digest) : merkleRounds crates txids = height txids.length := by
  induction txids using merkleRounds.induct crates with
  | case1 txids hmany ih => rw [merkleRounds, dif_pos hmany, ih, merkleLayer_length, height_of_lt hmany]
  | case2 txids hfew => rw [merkleRounds, dif_neg hfew, height_of_le (not_lt.mp hfew)]

/-- The root is what the last round leaves. -/
theorem transactionsMerkleRoot_eq (txids : List Digest) :
    transactionsMerkleRoot crates txids =
      ((merkleLayer crates)^[merkleRounds crates txids] txids)[0]? := by
  induction txids using merkleRounds.induct crates with
  | case1 txids hmany ih =>
    rw [transactionsMerkleRoot, dif_pos hmany, merkleRounds, dif_pos hmany, ih]
    rfl
  | case2 txids hfew =>
    rw [transactionsMerkleRoot, dif_neg hfew, merkleRounds, dif_neg hfew]
    rfl

variable {txids others : List Digest}

theorem reduced_to_root (h : txids ≠ []) :
    ∃ root, (merkleLayer crates)^[merkleRounds crates txids] txids = [root] ∧
      transactionsMerkleRoot crates txids = some root := by
  obtain ⟨root, hroot⟩ := layers_height (hashPair crates) h
  rw [← merkleRounds_eq crates, ← merkleLayer_eq] at hroot
  exact ⟨root, hroot, by rw [transactionsMerkleRoot_eq, hroot]; rfl⟩

variable {crates}

theorem inputsCollide_of_collide
    (h : Collide (hashPair crates) (hashed (hashPair crates) (merkleRounds crates txids) txids)
      (hashed (hashPair crates) (merkleRounds crates others) others)) :
    InputsCollide crates txids others := by
  obtain ⟨one, hone, other, hother, hne, hsame⟩ := h
  refine ⟨_, List.mem_map_of_mem hone, _, List.mem_map_of_mem hother, ?_, ?_, ?_, ?_⟩
  · rw [List.length_append, one.1.property, one.2.property]
  · rw [List.length_append, other.1.property, other.2.property]
  · intro hinput
    have hlength : one.1.val.length = other.1.val.length := by
      rw [one.1.property, other.1.property]
    obtain ⟨hleft, hright⟩ := List.append_inj hinput hlength
    exact hne (Prod.ext (Subtype.ext hleft) (Subtype.ext hright))
  · simpa [hashPair, sha256d] using hsame

theorem same_ids_of_root (hne : txids ≠ []) (hne' : others ≠ [])
    (hrounds : merkleRounds crates txids = merkleRounds crates others)
    (hroot : transactionsMerkleRoot crates txids = transactionsMerkleRoot crates others)
    (h : ¬ InputsCollide crates txids others) :
    (∀ txid, txid ∈ txids ↔ txid ∈ others) ∧ (txids.length = others.length → txids = others) := by
  obtain ⟨root, hlayer, hsome⟩ := reduced_to_root crates hne
  obtain ⟨root', hlayer', hsome'⟩ := reduced_to_root crates hne'
  have hsame : root = root' := by
    rw [hsome, hsome'] at hroot
    exact Option.some.inj hroot
  rw [merkleLayer_eq] at hlayer hlayer'
  rw [← hrounds, ← hsame] at hlayer'
  have hpairs : ¬ Collide (hashPair crates)
      (hashed (hashPair crates) (merkleRounds crates txids) txids)
      (hashed (hashPair crates) (merkleRounds crates txids) others) := by
    intro hcollide
    refine h (inputsCollide_of_collide ?_)
    rw [← hrounds]
    exact hcollide
  constructor
  · exact mem_iff_of_root hpairs hlayer hlayer'
  · exact fun hlength => eq_of_layers hpairs hlength (hlayer.trans hlayer'.symm)

/-- A buried transaction is listed by a block whose list has the root of its header. -/
theorem buried_listed {build : Build} {txid : Digest} {blocks : Bytes} {count : Int32}
    (h : (zcashAuthorizedAndBuried crates build txid blocks).outcome = .returned count)
    (hcount : 1 ≤ count.toInt) :
    ∃ r ∈ verifiedRecords crates build blocks, txid ∈ r.txids ∧
      transactionsMerkleRoot crates r.txids = some (hashMerkleRoot r.header) := by
  have hdepth : 0 < burialDepth crates build txid blocks := by
    rw [zcashAuthorizedAndBuried_outcome] at h
    split at h
    · cases h
    · cases h
      refine Nat.pos_of_ne_zero fun hzero => ?_
      rw [hzero] at hcount
      exact absurd hcount (by decide)
  obtain ⟨before, r, after, hsplit, hlisted, hroot, -⟩ :=
    BurialDepth.burialDepth_pos crates build hdepth
  exact ⟨r, by rw [hsplit]; simp, hlisted, hroot⟩

theorem ne_nil_of_root {root : Digest} (h : transactionsMerkleRoot crates txids = some root) :
    txids ≠ [] := by
  rintro rfl
  rw [transactionsMerkleRoot_nil] at h
  cases h

/-- The loop ends for every list that is not empty; lists reduced to one root in the same number
of rounds hold the same ids, and lists of one length are equal, unless two inputs collide. So
the block that lists a buried transaction really has it. -/
theorem merkle_root_binds (crates : Crates) (txids : List Digest) (hne : txids ≠ []) :
    (∃ root, (merkleLayer crates)^[merkleRounds crates txids] txids = [root] ∧
      transactionsMerkleRoot crates txids = some root) ∧
    (∀ others, others ≠ [] → merkleRounds crates txids = merkleRounds crates others →
      transactionsMerkleRoot crates txids = transactionsMerkleRoot crates others →
      ((∀ txid, txid ∈ txids ↔ txid ∈ others) ∧
        (txids.length = others.length → txids = others)) ∨ InputsCollide crates txids others) ∧
    (∀ (build : Build) (txid : Digest) (blocks : Bytes) (count : Int32),
      (zcashAuthorizedAndBuried crates build txid blocks).outcome = .returned count →
      1 ≤ count.toInt →
      ∃ r ∈ verifiedRecords crates build blocks, txid ∈ r.txids ∧
        (transactionsMerkleRoot crates txids = some (hashMerkleRoot r.header) →
          merkleRounds crates txids = merkleRounds crates r.txids →
          txid ∈ txids ∨ InputsCollide crates txids r.txids)) := by
  refine ⟨reduced_to_root crates hne, ?_, ?_⟩
  · intro others hne' hrounds hroot
    by_cases hcollide : InputsCollide crates txids others
    · exact .inr hcollide
    · exact .inl (same_ids_of_root hne hne' hrounds hroot hcollide)
  · intro build txid blocks count houtcome hcount
    obtain ⟨r, hr, hlisted, hlist⟩ := buried_listed houtcome hcount
    refine ⟨r, hr, hlisted, fun hreal hrounds => ?_⟩
    by_cases hcollide : InputsCollide crates txids r.txids
    · exact .inr hcollide
    · have hsame := same_ids_of_root hne (ne_nil_of_root hlist) hrounds (hreal.trans hlist.symm)
        hcollide
      exact .inl ((hsame.1 txid).mpr hlisted)

end

section Examples

/-- Three ids, and the same with the last one twice. -/
def threeIds : List Digest := List.replicate 3 (FixedBytes.zero 32)

def paddedIds : List Digest := List.replicate 4 (FixedBytes.zero 32)

theorem merkle_root_binds_padded :
    ((∀ txid, txid ∈ threeIds ↔ txid ∈ paddedIds) ∧
      (threeIds.length = paddedIds.length → threeIds = paddedIds)) ∨
      InputsCollide zeroCrates threeIds paddedIds := by
  have hlayer : merkleLayer zeroCrates threeIds = merkleLayer zeroCrates paddedIds := rfl
  refine (merkle_root_binds zeroCrates threeIds (by decide)).2.1 paddedIds (by decide) ?_ ?_
  · rw [merkleRounds_eq, merkleRounds_eq]
    decide
  · have hpadded : transactionsMerkleRoot zeroCrates paddedIds =
        transactionsMerkleRoot zeroCrates (merkleLayer zeroCrates paddedIds) := by
      rw [transactionsMerkleRoot, dif_pos (by decide)]
    rw [hpadded, ← hlayer, transactionsMerkleRoot, dif_pos (by decide)]

end Examples

end Auntie.Guarantees.MerkleBinding
