import Auntie.Source.Build

/-!
# Chain verifiers of `zcash_ffi/src/blocks.rs`

Embeds `blocks.rs:16-199`: the slices of a block header, the Equihash,
difficulty and link checks, the Merkle root of a transaction list, and the two
loops `zcash_authorized_and_buried` and `zcash_blocks_since_checkpoint`.

The crates `sha2` and `equihash` are not part of the repository: they are the
fields of `Crates`, and every definition is for all of them. An index out of
range is the outcome `panicked`; the `i32` counters wrap, as in the release
profile. The buffers requested for a transaction list are recorded next to the
outcome, each with the number of bytes that followed the count it was sized by and
of those that were still unread. Text printed on the way is not represented.
-/

namespace Auntie.Source.Blocks

structure Crates where
  /-- `Sha256::digest` of the `sha2` crate. -/
  sha256 : Bytes → FixedBytes 32
  /-- `equihash::is_valid_solution(n, k, input, nonce, soln).is_ok()`. -/
  isValidSolution : Nat → Nat → Bytes → Bytes → Bytes → Bool

abbrev blockHeaderLength : Nat := 1487

abbrev Digest := FixedBytes 32
abbrev Header := FixedBytes blockHeaderLength

section Header
variable (crates : Crates) (build : Build)

/-- The build constant is in RPC byte order, the chain is linked in wire order. -/
def checkpointBlockHash : Digest := build.checkpointBlockHash.reverse

def sha256d (inputs : List Bytes) : Digest := crates.sha256 (crates.sha256 inputs.flatten).val

def hashPrevBlock (block : Header) : Digest := block.slice 4 32 (by decide)

def hashMerkleRoot (block : Header) : Digest := block.slice 36 32 (by decide)

def hashThisBlock (block : Header) : Digest := sha256d crates [block.val]

def correctEquihashSolution (block : Header) : Bool :=
  crates.isValidSolution 200 9 (block.slice 0 108 (by decide)).val
    (block.slice 108 32 (by decide)).val (block.slice 143 1344 (by decide)).val

def difficultyTarget : Nat := if build.testnet then 2 ^ 251 else 2 ^ 243

def passesDifficultyFilter (block : Header) : Bool :=
  decide (leValue (hashThisBlock crates block).val < difficultyTarget build)

def verifyBlockHeader (block : Header) (previousBlockHash : Digest) : Option Digest :=
  if correctEquihashSolution crates block && passesDifficultyFilter crates build block &&
      hashPrevBlock block == previousBlockHash then
    some (hashThisBlock crates block)
  else none

theorem verifyBlockHeader_some {block : Header} {previous digest : Digest} :
    verifyBlockHeader crates build block previous = some digest ↔
      correctEquihashSolution crates block = true ∧
      passesDifficultyFilter crates build block = true ∧
      hashPrevBlock block = previous ∧ hashThisBlock crates block = digest := by
  unfold verifyBlockHeader
  split
  · rename_i h
    simp only [Bool.and_eq_true, beq_iff_eq] at h
    simp [h.1.1, h.1.2, h.2]
  · rename_i h
    simp only [Bool.and_eq_true, beq_iff_eq] at h
    simp only [reduceCtorEq, false_iff]
    exact fun hall => h ⟨⟨hall.1, hall.2.1⟩, hall.2.2.1⟩

end Header

section Merkle
variable (crates : Crates)

/-- One layer up: `chunks(2)` hashed pairwise, an odd last node paired with itself. -/
def merkleLayer : List Digest → List Digest
  | left :: right :: rest => sha256d crates [left.val, right.val] :: merkleLayer rest
  | [left] => [sha256d crates [left.val, left.val]]
  | [] => []

theorem merkleLayer_length (hashes : List Digest) :
    (merkleLayer crates hashes).length = (hashes.length + 1) / 2 := by
  induction hashes using merkleLayer.induct with
  | case1 left right rest ih =>
    simp only [merkleLayer, List.length_cons, ih]
    omega
  | case2 left => simp [merkleLayer]
  | case3 => simp [merkleLayer]

/-- `None` is the index panic of `hashes[0]` on an empty list. -/
def transactionsMerkleRoot (txids : List Digest) : Option Digest :=
  if _h : 1 < txids.length then transactionsMerkleRoot (merkleLayer crates txids)
  else txids[0]?
termination_by txids.length
decreasing_by
  rw [merkleLayer_length]
  omega

@[simp] theorem transactionsMerkleRoot_nil : transactionsMerkleRoot crates [] = none := by
  rw [transactionsMerkleRoot]
  rfl

@[simp] theorem transactionsMerkleRoot_singleton (txid : Digest) :
    transactionsMerkleRoot crates [txid] = some txid := by
  rw [transactionsMerkleRoot]
  rfl

/-- A non-empty list has a root: the final index is in range. -/
theorem transactionsMerkleRoot_isSome (txids : List Digest) (h : txids ≠ []) :
    (transactionsMerkleRoot crates txids).isSome := by
  induction txids using transactionsMerkleRoot.induct crates with
  | case1 txids hlong ih =>
    rw [transactionsMerkleRoot, dif_pos hlong]
    apply ih
    intro hnil
    have hlen := merkleLayer_length crates txids
    rw [hnil, List.length_nil] at hlen
    omega
  | case2 txids hshort =>
    rw [transactionsMerkleRoot, dif_neg hshort]
    have hpos := List.length_pos_of_ne_nil h
    rw [List.getElem?_eq_getElem hpos]
    rfl

/-- Buffers requested by the layers above a list of `count` hashes. -/
def merkleRequests (count : Nat) : List Nat :=
  if _h : 1 < count then 32 * ((count + 1) / 2) :: merkleRequests ((count + 1) / 2) else []
termination_by count

theorem merkleRequests_le (count : Nat) : ∀ size ∈ merkleRequests count, size ≤ 32 * count := by
  induction count using merkleRequests.induct with
  | case1 count hlong ih =>
    intro size hsize
    rw [merkleRequests, dif_pos hlong] at hsize
    rcases List.mem_cons.mp hsize with rfl | hrest
    · omega
    · have := ih size hrest
      omega
  | case2 count hshort =>
    intro size hsize
    rw [merkleRequests, dif_neg hshort] at hsize
    cases hsize

end Merkle

inductive Outcome where
  | returned (count : Int32)
  | panicked
  deriving DecidableEq

/-- A buffer of `size` bytes. -/
structure Request where
  size : Nat
  /-- Bytes of the input that follow the count. -/
  following : Nat
  /-- Bytes of the input that are not read yet. -/
  unread : Nat
  deriving DecidableEq

structure Scan where
  requests : List Request
  outcome : Outcome

/-- The outcome of the rest of a scan, its requests after the given ones. -/
def Scan.after (requests : List Request) (rest : Scan) : Scan :=
  ⟨requests ++ rest.requests, rest.outcome⟩

section Verifiers
variable (crates : Crates) (build : Build)

/-- The `loop` of `zcash_authorized_and_buried`, one block an iteration. -/
def authorizedAndBuriedLoop (txid : Digest) (previousBlockHash : Digest)
    (countSinceSettlement : Int32) (settlementFound : Bool) (stream : Bytes) : Scan :=
  match _h1 : readExact blockHeaderLength stream with
  | none => ⟨[], .returned countSinceSettlement⟩
  | some (block, stream1) =>
    match verifyBlockHeader crates build block previousBlockHash with
    | none => ⟨[], .returned countSinceSettlement⟩
    | some digest =>
      match _h2 : readExact 4 stream1 with
      | none => ⟨[], .returned countSinceSettlement⟩
      | some (rawCount, stream2) =>
        let transactionsInBlock := leValue rawCount.val
        let size := transactionsInBlock * 32
        let request := fun size unread => Request.mk size stream2.length unread
        match _h3 : readExact size stream2 with
        | none => ⟨[request size stream2.length], .returned countSinceSettlement⟩
        | some (rawTransactions, stream3) =>
          let transactions := chunksExact 32 rawTransactions.val
          let requests := request size stream2.length ::
            (size :: merkleRequests transactions.length).map (request · stream3.length)
          let countSinceSettlement :=
            if settlementFound then countSinceSettlement + 1 else countSinceSettlement
          let settlementFound := settlementFound || transactions.contains txid
          match transactionsMerkleRoot crates transactions with
          | none => ⟨requests, .panicked⟩
          | some root =>
            if root ≠ hashMerkleRoot block then
              ⟨requests, .returned countSinceSettlement⟩
            else
              (authorizedAndBuriedLoop txid digest countSinceSettlement settlementFound
                stream3).after requests
termination_by stream.length
decreasing_by
  have := readExact_length _h1
  have := readExact_length _h2
  have := readExact_length _h3
  simp only [blockHeaderLength] at *
  omega

def zcashAuthorizedAndBuried (txid : Digest) (blocks : Bytes) : Scan :=
  authorizedAndBuriedLoop crates build txid (checkpointBlockHash build) 0 false blocks

/-- The `for` loop of `zcash_blocks_since_checkpoint`. -/
def blocksSinceCheckpointLoop (previousBlockHash : Digest) (count : Int32) :
    List Header → Int32
  | [] => count
  | block :: blocks =>
    match verifyBlockHeader crates build block previousBlockHash with
    | some digest => blocksSinceCheckpointLoop digest (count + 1) blocks
    | none => count

def zcashBlocksSinceCheckpoint (blocks : Bytes) : Int32 :=
  blocksSinceCheckpointLoop crates build (checkpointBlockHash build) 0
    (chunksExact blockHeaderLength blocks)

end Verifiers

end Auntie.Source.Blocks
