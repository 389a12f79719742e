import Auntie.Chain
import Auntie.Source.Zcash.Blocks

/-!
# What the chain verifiers read: block records

An independent reading of the byte string handed to `zcash_authorized_and_buried`.
A record is a header with a transaction list; `parseRecords` takes the whole
records at the front of a byte string without looking at their contents, and
`verifiedRecords` cuts them where a header is refused or just after the first
list that does not hash to its header's Merkle root. The loop of the source is
shown to compute the depth of a transaction in that list
(`zcashAuthorizedAndBuried_outcome`).
-/

namespace Auntie.Source.Blocks
open Auntie.Chain

structure Record where
  header : Header
  txids : List Digest
  deriving DecidableEq

/-- `[header][count as u32][txids]`. -/
def Record.encode (r : Record) : Bytes :=
  r.header.val ++ ((u32ToLeBytes r.txids.length).val ++ r.txids.flatMap (·.val))

/-- The complete record at the front of a byte string. -/
def parseRecord (stream : Bytes) : Option (Record × Bytes) :=
  match readExact blockHeaderLength stream with
  | none => none
  | some (header, stream) =>
    match readExact 4 stream with
    | none => none
    | some (rawCount, stream) =>
      match readExact (leValue rawCount.val * 32) stream with
      | none => none
      | some (txids, rest) => some (⟨header, chunksExact 32 txids.val⟩, rest)

theorem parseRecord_length {stream rest : Bytes} {r : Record}
    (h : parseRecord stream = some (r, rest)) : rest.length < stream.length := by
  unfold parseRecord at h
  split at h
  · cases h
  · rename_i header stream1 h1
    split at h
    · cases h
    · rename_i rawCount stream2 h2
      split at h
      · cases h
      · rename_i txids stream3 h3
        simp only [Option.some.injEq, Prod.mk.injEq] at h
        obtain ⟨-, rfl⟩ := h
        have := readExact_length h1
        have := readExact_length h2
        have := readExact_length h3
        simp only [blockHeaderLength] at *
        omega

theorem flatMap_digest_length (txids : List Digest) :
    (txids.flatMap (·.val)).length = txids.length * 32 := by
  induction txids with
  | nil => rfl
  | cons txid rest ih =>
    rw [List.flatMap_cons, List.length_append, ih, txid.property, List.length_cons]
    omega

/-- Reading a record back, whatever follows it. -/
theorem parseRecord_encode (r : Record) (rest : Bytes) (h : r.txids.length < 2 ^ 32) :
    parseRecord (r.encode ++ rest) = some (r, rest) := by
  have htxids := readExact_append (n := leValue (u32ToLeBytes r.txids.length).val * 32)
    ⟨r.txids.flatMap (·.val), by
      rw [leValue_u32ToLeBytes _ h, flatMap_digest_length]⟩ rest
  unfold parseRecord Record.encode
  rw [List.append_assoc, readExact_append (n := blockHeaderLength)]
  simp only [List.append_assoc, readExact_append]
  simp only [htxids, chunksExact_flatMap (show 0 < 32 by decide)]

/-- Every complete record at the front of a byte string, in order. -/
def parseRecords (stream : Bytes) : List Record :=
  match _h : parseRecord stream with
  | none => []
  | some (r, rest) => r :: parseRecords rest
termination_by stream.length
decreasing_by exact parseRecord_length _h

theorem parseRecords_none {stream : Bytes} (h : parseRecord stream = none) :
    parseRecords stream = [] := by
  rw [parseRecords]
  split
  · rfl
  · rename_i hsome
    rw [h] at hsome
    cases hsome

theorem parseRecords_some {stream rest : Bytes} {r : Record}
    (h : parseRecord stream = some (r, rest)) : parseRecords stream = r :: parseRecords rest := by
  rw [parseRecords]
  split
  · rename_i hnone
    rw [h] at hnone
    cases hnone
  · rename_i hsome
    rw [h] at hsome
    cases hsome
    rfl

theorem parseRecords_nil : parseRecords [] = [] := parseRecords_none rfl

theorem parseRecords_encode (records : List Record) (h : ∀ r ∈ records, r.txids.length < 2 ^ 32) :
    parseRecords (records.flatMap Record.encode) = records := by
  induction records with
  | nil => exact parseRecords_nil
  | cons r rest ih =>
    rw [List.flatMap_cons, parseRecords_some (parseRecord_encode r _ (h r (by simp))),
      ih (fun other hother => h other (by simp [hother]))]

section Verified
variable (crates : Crates) (build : Build)

/-- The transaction list hashes to the Merkle root of the header. -/
def Record.consistent (r : Record) : Bool :=
  transactionsMerkleRoot crates r.txids == some (hashMerkleRoot r.header)

def acceptRecord (r : Record) (previous : Digest) : Option Digest :=
  verifyBlockHeader crates build r.header previous

/-- The verified records from a digest on: linked valid headers, cut just after
the first inconsistent transaction list. -/
def verifiedFrom (previous : Digest) (stream : Bytes) : List Record :=
  cutAfter (fun r => !r.consistent crates)
    (acceptedPrefix (acceptRecord crates build) previous (parseRecords stream))

def verifiedRecords (blocks : Bytes) : List Record :=
  verifiedFrom crates build (checkpointBlockHash build) blocks

/-- The number of verified blocks after the first one that lists the transaction. -/
def burialDepth (txid : Digest) (blocks : Bytes) : Nat :=
  depthAfterFirst (fun r => r.txids.contains txid) (verifiedRecords crates build blocks)

theorem verifiedFrom_none {previous : Digest} {stream : Bytes}
    (h : parseRecord stream = none) : verifiedFrom crates build previous stream = [] := by
  rw [verifiedFrom, parseRecords_none h]
  rfl

theorem verifiedFrom_refused {previous : Digest} {stream rest : Bytes} {r : Record}
    (h : parseRecord stream = some (r, rest))
    (hrefused : verifyBlockHeader crates build r.header previous = none) :
    verifiedFrom crates build previous stream = [] := by
  rw [verifiedFrom, parseRecords_some h, acceptedPrefix, acceptRecord, hrefused]
  rfl

theorem verifiedFrom_some {previous digest : Digest} {stream rest : Bytes} {r : Record}
    (h : parseRecord stream = some (r, rest))
    (haccept : verifyBlockHeader crates build r.header previous = some digest) :
    verifiedFrom crates build previous stream =
      r :: if r.consistent crates then verifiedFrom crates build digest rest else [] := by
  rw [verifiedFrom, parseRecords_some h, acceptedPrefix, acceptRecord, haccept]
  by_cases hconsistent : r.consistent crates = true
  · simp [cutAfter, verifiedFrom, hconsistent]
  · simp [cutAfter, hconsistent]

theorem verifiedRecords_prefixOf (blocks : Bytes) :
    verifiedRecords crates build blocks <+: parseRecords blocks :=
  (cutAfter_prefixOf _ _).trans (acceptedPrefix_prefixOf _ _ _)

theorem verifiedRecords_linked (blocks : Bytes) :
    Linked (acceptRecord crates build) (checkpointBlockHash build)
      (verifiedRecords crates build blocks) :=
  (acceptedPrefix_linked _ _ _).of_prefixOf _ (cutAfter_prefixOf _ _)

/-- An honestly encoded chain is read back whole. -/
theorem verifiedRecords_honest {records : List Record}
    (hcount : ∀ r ∈ records, r.txids.length < 2 ^ 32)
    (hlinked : Linked (acceptRecord crates build) (checkpointBlockHash build) records)
    (hconsistent : ∀ r ∈ records,
      transactionsMerkleRoot crates r.txids = some (hashMerkleRoot r.header)) :
    verifiedRecords crates build (records.flatMap Record.encode) = records := by
  rw [verifiedRecords, verifiedFrom, parseRecords_encode records hcount,
    acceptedPrefix_of_linked _ hlinked]
  exact cutAfter_of_clean _ (fun r hr => by simp [Record.consistent, hconsistent r hr])

end Verified

section Loop
variable (crates : Crates) (build : Build)

/-- One iteration on a byte string that holds no complete record: whatever is
missing, the counter is returned as it is. -/
theorem loop_none {txid previous : Digest} {count : Int32} {found : Bool} {stream : Bytes}
    (h : parseRecord stream = none) :
    (authorizedAndBuriedLoop crates build txid previous count found stream).outcome =
      .returned count := by
  unfold parseRecord at h
  rw [authorizedAndBuriedLoop]
  split
  · rfl
  · rename_i block stream1 h1
    simp only [h1] at h
    split
    · rfl
    · split
      · rfl
      · rename_i rawCount stream2 h2
        simp only [h2] at h
        simp only
        split
        · rfl
        · rename_i raw stream3 h3
          simp only [h3] at h
          cases h

theorem loop_refused {txid previous : Digest} {count : Int32} {found : Bool} {stream rest : Bytes}
    {r : Record} (h : parseRecord stream = some (r, rest))
    (hrefused : verifyBlockHeader crates build r.header previous = none) :
    authorizedAndBuriedLoop crates build txid previous count found stream =
      ⟨[], .returned count⟩ := by
  unfold parseRecord at h
  rw [authorizedAndBuriedLoop]
  split
  · rfl
  · rename_i block stream1 h1
    simp only [h1] at h
    have hblock : block = r.header := by
      split at h
      · cases h
      · split at h
        · cases h
        · simp only [Option.some.injEq, Prod.mk.injEq] at h
          rw [← h.1]
    rw [hblock, hrefused]

/-- Buffers requested for a complete record before `unread` bytes: the raw list, and once it
has been read its copy as an array of txids and the layers of the Merkle tree. -/
def recordRequests (count unread : Nat) : List Request :=
  ⟨count * 32, count * 32 + unread, count * 32 + unread⟩ ::
    (count * 32 :: merkleRequests count).map fun size => ⟨size, count * 32 + unread, unread⟩

/-- A complete record is never sized beyond the bytes that follow its count. -/
theorem recordRequests_le_following (count unread : Nat) :
    ∀ request ∈ recordRequests count unread, request.size ≤ request.following := by
  intro request hmem
  rcases List.mem_cons.mp hmem with rfl | hmem
  · exact Nat.le_add_right _ _
  · obtain ⟨size, hsize, rfl⟩ := List.mem_map.mp hmem
    change size ≤ count * 32 + unread
    rcases List.mem_cons.mp hsize with rfl | hlayer
    · exact Nat.le_add_right _ _
    · have hle := merkleRequests_le count size hlayer
      omega

/-- Its copy is requested when its bytes have been read. -/
theorem recordRequests_le_unread (count unread : Nat) :
    (∀ request ∈ recordRequests count unread, request.size ≤ request.unread) ↔
      count * 32 ≤ unread := by
  constructor
  · intro hall
    exact hall ⟨count * 32, count * 32 + unread, unread⟩ (by simp [recordRequests])
  · intro hle request hmem
    rcases List.mem_cons.mp hmem with rfl | hmem
    · exact Nat.le_add_right _ _
    · obtain ⟨size, hsize, rfl⟩ := List.mem_map.mp hmem
      change size ≤ unread
      rcases List.mem_cons.mp hsize with rfl | hlayer
      · exact hle
      · have hlayer := merkleRequests_le count size hlayer
        omega

/-- One iteration on a complete record with an accepted header. -/
theorem loop_some {txid previous digest : Digest} {count : Int32} {found : Bool}
    {stream rest : Bytes} {r : Record} (h : parseRecord stream = some (r, rest))
    (haccept : verifyBlockHeader crates build r.header previous = some digest) :
    authorizedAndBuriedLoop crates build txid previous count found stream =
      Scan.after (recordRequests r.txids.length rest.length)
        (if r.txids = [] then ⟨[], .panicked⟩
        else if r.consistent crates then
          authorizedAndBuriedLoop crates build txid digest (if found then count + 1 else count)
            (found || r.txids.contains txid) rest
        else ⟨[], .returned (if found then count + 1 else count)⟩) := by
  unfold parseRecord at h
  rw [authorizedAndBuriedLoop]
  split
  · rename_i h1
    simp only [h1] at h
    cases h
  · rename_i block stream1 h1
    simp only [h1] at h
    split at h
    · cases h
    · rename_i rawCount stream2 h2
      split at h
      · cases h
      · rename_i raw stream3 h3
        simp only [Option.some.injEq, Prod.mk.injEq] at h
        obtain ⟨rfl, rfl⟩ := h
        simp only [haccept]
        split
        · rename_i h2'
          rw [h2] at h2'
          cases h2'
        · rename_i h2'
          rw [h2] at h2'
          cases h2'
          split
          · rename_i h3'
            rw [h3] at h3'
            cases h3'
          · rename_i h3'
            rw [h3] at h3'
            cases h3'
            have hlength : (chunksExact 32 raw.val).length = leValue rawCount.val := by
              rw [chunksExact_length, raw.property, Nat.mul_div_cancel _ (by decide)]
            have hremaining := readExact_length h3
            simp only [recordRequests, hlength, hremaining]
            by_cases hnil : chunksExact 32 raw.val = []
            · simp [hnil, Scan.after]
            · obtain ⟨root, hroot⟩ := Option.isSome_iff_exists.mp
                (transactionsMerkleRoot_isSome crates (chunksExact 32 raw.val) hnil)
              by_cases heq : root = hashMerkleRoot block
              · simp [Record.consistent, hroot, hnil, heq, Scan.after]
              · simp [Record.consistent, hroot, hnil, heq, Subtype.val_inj, Scan.after]

/-- The loop from any of its states: the blocks after the settlement are counted on
top of the counter, and an empty list among the verified records is the panic. -/
theorem loop_outcome (txid previous : Digest) (count : Int32) (found : Bool) (stream : Bytes) :
    (authorizedAndBuriedLoop crates build txid previous count found stream).outcome =
      if ∃ r ∈ verifiedFrom crates build previous stream, r.txids = [] then .panicked
      else .returned (count + Int32.ofNat
        (if found then (verifiedFrom crates build previous stream).length
          else depthAfterFirst (fun r => r.txids.contains txid)
            (verifiedFrom crates build previous stream))) := by
  induction stream using parseRecords.induct generalizing previous count found with
  | case1 stream hnone =>
    rw [loop_none crates build hnone, verifiedFrom_none crates build hnone]
    simp
  | case2 stream r rest hsome ih =>
    cases haccept : verifyBlockHeader crates build r.header previous with
    | none =>
      rw [loop_refused crates build hsome haccept, verifiedFrom_refused crates build hsome haccept]
      simp
    | some digest =>
      rw [loop_some crates build hsome haccept, verifiedFrom_some crates build hsome haccept,
        Scan.after]
      by_cases hempty : r.txids = []
      · simp [hempty]
      by_cases hconsistent : r.consistent crates = true
      · simp only [if_neg hempty, if_pos hconsistent, ih]
        generalize verifiedFrom crates build digest rest = records
        have hexists : (∃ other ∈ r :: records, other.txids = []) ↔
            ∃ other ∈ records, other.txids = [] := by simp [hempty]
        simp only [hexists]
        congr 1
        rw [depthAfterFirst_cons]
        cases found
        · simp
        · simp only [if_true, Bool.true_or, List.length_cons, Int32.ofNat_add]
          rw [Int32.add_assoc, Int32.add_comm 1]
          rfl
      · simp only [if_neg hempty, if_neg hconsistent]
        cases found <;> simp [hempty, depthAfterFirst_cons]

/-- The verifier returns the depth of the transaction among the verified records,
and panics exactly when one of them lists no transaction. -/
theorem zcashAuthorizedAndBuried_outcome (txid : Digest) (blocks : Bytes) :
    (zcashAuthorizedAndBuried crates build txid blocks).outcome =
      if ∃ r ∈ verifiedRecords crates build blocks, r.txids = [] then .panicked
      else .returned (Int32.ofNat (burialDepth crates build txid blocks)) := by
  rw [zcashAuthorizedAndBuried, loop_outcome]
  simp only [verifiedRecords, burialDepth, Bool.false_eq_true, if_false]
  rw [Int32.zero_add]
  rfl

end Loop

section Headers
variable (crates : Crates) (build : Build)

/-- The headers `zcash_blocks_since_checkpoint` counts: the longest prefix of whole
chunks that are valid and linked from the checkpoint on. -/
def countedHeaders (blocks : Bytes) : List Header :=
  acceptedPrefix (verifyBlockHeader crates build) (checkpointBlockHash build)
    (chunksExact blockHeaderLength blocks)

theorem blocksSinceCheckpointLoop_eq (previous : Digest) (count : Int32) (headers : List Header) :
    blocksSinceCheckpointLoop crates build previous count headers =
      count + Int32.ofNat
        (acceptedPrefix (verifyBlockHeader crates build) previous headers).length := by
  induction headers generalizing previous count with
  | nil =>
    simp only [blocksSinceCheckpointLoop, acceptedPrefix, List.length_nil]
    exact (Int32.add_zero count).symm
  | cons header rest ih =>
    cases h : verifyBlockHeader crates build header previous with
    | none =>
      simp only [blocksSinceCheckpointLoop, acceptedPrefix, h, List.length_nil]
      exact (Int32.add_zero count).symm
    | some digest =>
      simp only [blocksSinceCheckpointLoop, acceptedPrefix, h, List.length_cons, ih,
        Int32.ofNat_add]
      rw [Int32.add_assoc, Int32.add_comm 1]
      rfl

theorem zcashBlocksSinceCheckpoint_eq (blocks : Bytes) :
    zcashBlocksSinceCheckpoint crates build blocks =
      Int32.ofNat (countedHeaders crates build blocks).length := by
  rw [zcashBlocksSinceCheckpoint, blocksSinceCheckpointLoop_eq, Int32.zero_add, countedHeaders]

end Headers

/-- A hash of one value and no proof of work: an instance on which chains of one
repeated header can be written down. -/
def zeroCrates : Crates where
  sha256 _ := FixedBytes.zero 32
  isValidSolution _ _ _ _ _ := true

def zeroBuild : Build := Build.defaults (FixedBytes.zero 32)

def zeroRecord : Record := ⟨FixedBytes.zero blockHeaderLength, [FixedBytes.zero 32]⟩

theorem zero_reverse (n : Nat) : (FixedBytes.zero n).reverse = FixedBytes.zero n :=
  Subtype.ext (by simp [FixedBytes.reverse, FixedBytes.zero])

theorem zero_slice (n start len : Nat) (h : start + len ≤ n) :
    (FixedBytes.zero n).slice start len h = FixedBytes.zero len := by
  apply Subtype.ext
  simp only [FixedBytes.slice, FixedBytes.zero, List.drop_replicate, List.take_replicate]
  congr 1
  omega

theorem zeroCheckpoint : checkpointBlockHash zeroBuild = FixedBytes.zero 32 := zero_reverse 32

theorem zeroHeader_verifies :
    verifyBlockHeader zeroCrates zeroBuild (FixedBytes.zero blockHeaderLength)
      (FixedBytes.zero 32) = some (FixedBytes.zero 32) := by
  rw [verifyBlockHeader_some]
  refine ⟨rfl, ?_, zero_slice _ _ _ _, rfl⟩
  have hvalue : leValue (FixedBytes.zero 32).val = 0 := by decide
  simp [passesDifficultyFilter, hashThisBlock, sha256d, zeroCrates, hvalue, difficultyTarget,
    zeroBuild, Build.defaults]

theorem zeroRecords_linked (m : Nat) :
    Linked (acceptRecord zeroCrates zeroBuild) (FixedBytes.zero 32)
      (List.replicate m zeroRecord) := by
  induction m with
  | zero => trivial
  | succ m ih => exact ⟨FixedBytes.zero 32, zeroHeader_verifies, ih⟩

theorem zeroRecord_consistent :
    transactionsMerkleRoot zeroCrates zeroRecord.txids = some (hashMerkleRoot zeroRecord.header) := by
  rw [zeroRecord, transactionsMerkleRoot_singleton]
  exact congrArg some (zero_slice _ _ _ _).symm

theorem verifiedRecords_zero (m : Nat) :
    verifiedRecords zeroCrates zeroBuild ((List.replicate m zeroRecord).flatMap Record.encode) =
      List.replicate m zeroRecord := by
  apply verifiedRecords_honest
  · intro r hr
    rw [List.eq_of_mem_replicate hr]
    decide
  · rw [zeroCheckpoint]
    exact zeroRecords_linked m
  · intro r hr
    rw [List.eq_of_mem_replicate hr]
    exact zeroRecord_consistent

/-- `m` blocks after the one that lists the transaction. -/
def zeroBlocks (m : Nat) : Bytes := (List.replicate (m + 1) zeroRecord).flatMap Record.encode

theorem zeroBlocks_buried (m : Nat) :
    (zcashAuthorizedAndBuried zeroCrates zeroBuild (FixedBytes.zero 32) (zeroBlocks m)).outcome =
      .returned (Int32.ofNat m) := by
  have hread := verifiedRecords_zero (m + 1)
  have hempty : ¬ ∃ r ∈ verifiedRecords zeroCrates zeroBuild (zeroBlocks m), r.txids = [] := by
    rintro ⟨r, hr, hnil⟩
    rw [zeroBlocks, hread] at hr
    rw [List.eq_of_mem_replicate hr] at hnil
    cases hnil
  rw [zcashAuthorizedAndBuried_outcome, if_neg hempty, burialDepth, zeroBlocks, hread,
    List.replicate_succ, depthAfterFirst_cons, if_pos (by decide), List.length_replicate]

def zeroHeaders (m : Nat) : Bytes :=
  (List.replicate m zeroRecord.header).flatMap fun header => header.val

theorem zeroHeaders_linked (m : Nat) :
    Linked (verifyBlockHeader zeroCrates zeroBuild) (FixedBytes.zero 32)
      (List.replicate m zeroRecord.header) := by
  induction m with
  | zero => trivial
  | succ m ih => exact ⟨FixedBytes.zero 32, zeroHeader_verifies, ih⟩

theorem zeroHeaders_counted (m : Nat) :
    zcashBlocksSinceCheckpoint zeroCrates zeroBuild (zeroHeaders m) = Int32.ofNat m := by
  rw [zcashBlocksSinceCheckpoint_eq, countedHeaders, zeroHeaders,
    chunksExact_flatMap (by decide), zeroCheckpoint,
    acceptedPrefix_of_linked _ (zeroHeaders_linked m), List.length_replicate]

end Auntie.Source.Blocks
