import Auntie.Guarantees.BurialDepth

/-!
# When `zcash_authorized_and_buried` cannot bring the enclave down

A panic aborts the enclave. The loop sizes a buffer by the transaction count it
has just read, before it knows that the transactions are there, and takes the
Merkle root of the list without asking whether it is empty. So a header that
verifies, followed by a count of zero, panics; followed by a count larger than
the data, it requests a buffer of up to 128 GiB.

`authorized_and_buried_safe_iff` gives the exact condition on the input: at every
block the loop reaches, the count declared after a verified header is positive
and covered by the bytes that follow. The list is copied once it has been read, and
the bytes that remain in the input can be taken with or without those of the list: a
`Reading` says which, and without them every list has to fit twice.
-/

namespace Auntie.Guarantees.ChainVerifierSafety
open Auntie.Source Auntie.Source.Blocks Auntie.Chain

/-- Which bytes of the input remain when a buffer for a transaction list is requested. -/
inductive Reading where
  /-- All that follow the count of the list. -/
  | following
  /-- Those that are not read yet. -/
  | unread

namespace Reading

def remaining : Reading → Request → Nat
  | following, request => request.following
  | unread, request => request.unread

/-- How often a list has to fit into the bytes that follow its count. -/
def copies : Reading → Nat
  | following => 1
  | unread => 2

variable (reading : Reading)

theorem remaining_first (size length : Nat) : reading.remaining ⟨size, length, length⟩ = length := by
  cases reading with
  | following => rfl
  | unread => rfl

theorem copies_pos : 1 ≤ reading.copies := by
  cases reading with
  | following => exact Nat.le_refl 1
  | unread => exact Nat.le_succ 1

theorem recordRequests_le_iff (count unread : Nat) :
    (∀ request ∈ recordRequests count unread, request.size ≤ reading.remaining request) ↔
      count * 32 * reading.copies ≤ count * 32 + unread := by
  cases reading with
  | following => exact iff_of_true (recordRequests_le_following count unread) (by simp [copies])
  | unread =>
    refine (recordRequests_le_unread count unread).trans ?_
    simp only [copies]
    omega

end Reading

section
variable (reading : Reading)

/-- The scan returns a non-negative count, and never requests a buffer larger than the
bytes that remain in its input. -/
def SafeScan (scan : Scan) : Prop :=
  (∃ count, scan.outcome = .returned count ∧ 0 ≤ count.toInt) ∧
  ∀ request ∈ scan.requests, request.size ≤ reading.remaining request

variable (crates : Crates) (build : Build)

/-- The transaction count after a verified header, if the input holds one, is positive,
and the bytes that follow it cover the list, or its copy as well. -/
def CountFits (previous : Digest) (stream : Bytes) : Prop :=
  ∀ header stream1 rawCount stream2,
    readExact blockHeaderLength stream = some (header, stream1) →
    (verifyBlockHeader crates build header previous).isSome →
    readExact 4 stream1 = some (rawCount, stream2) →
    0 < leValue rawCount.val ∧ leValue rawCount.val * 32 * reading.copies ≤ stream2.length

/-- The positions the loop reaches: past whole, verified and consistent records. -/
inductive Reached : Digest → Bytes → Digest → Bytes → Prop
  | here (previous : Digest) (stream : Bytes) : Reached previous stream previous stream
  | next {previous digest last : Digest} {stream rest final : Bytes} {r : Record}
      (record : parseRecord stream = some (r, rest))
      (verified : verifyBlockHeader crates build r.header previous = some digest)
      (consistent : r.consistent crates = true)
      (onward : Reached digest rest last final) : Reached previous stream last final

/-- `CountFits` at every position reached from here on. -/
def CountsFit (previous : Digest) (stream : Bytes) : Prop :=
  ∀ last final, Reached crates build previous stream last final →
    CountFits reading crates build last final

theorem countsFit_none {previous : Digest} {stream : Bytes} (h : parseRecord stream = none) :
    CountsFit reading crates build previous stream ↔
      CountFits reading crates build previous stream := by
  constructor
  · exact fun hall => hall previous stream (.here previous stream)
  · intro hhere last final hreached
    cases hreached with
    | here => exact hhere
    | next record =>
      rw [h] at record
      cases record

theorem countsFit_some {previous digest : Digest} {stream rest : Bytes} {r : Record}
    (h : parseRecord stream = some (r, rest))
    (hverified : verifyBlockHeader crates build r.header previous = some digest) :
    CountsFit reading crates build previous stream ↔
      CountFits reading crates build previous stream ∧
        (r.consistent crates = true → CountsFit reading crates build digest rest) := by
  constructor
  · intro hall
    refine ⟨hall previous stream (.here previous stream), fun hconsistent last final honward => ?_⟩
    exact hall last final (.next h hverified hconsistent honward)
  · rintro ⟨hhere, honward⟩ last final hreached
    cases hreached with
    | here => exact hhere
    | next record verified consistent onward =>
      rw [h] at record
      cases record
      rw [hverified] at verified
      cases verified
      exact honward consistent last final onward

theorem countsFit_refused {previous : Digest} {stream rest : Bytes} {r : Record}
    (h : parseRecord stream = some (r, rest))
    (hrefused : verifyBlockHeader crates build r.header previous = none) :
    CountsFit reading crates build previous stream := by
  intro last final hreached
  cases hreached with
  | here =>
    intro header stream1 rawCount stream2 h1 hverified h2
    unfold parseRecord at h
    simp only [h1, h2] at h
    split at h
    · cases h
    · simp only [Option.some.injEq, Prod.mk.injEq] at h
      rw [← h.1] at hrefused
      rw [hrefused] at hverified
      cases hverified
  | next record verified =>
    rw [h] at record
    cases record
    rw [hrefused] at verified
    cases verified

/-- On a complete record only the zero count is left to exclude, and a copy too large. -/
theorem countFits_some {previous digest : Digest} {stream rest : Bytes} {r : Record}
    (h : parseRecord stream = some (r, rest))
    (hverified : verifyBlockHeader crates build r.header previous = some digest) :
    CountFits reading crates build previous stream ↔ r.txids ≠ [] ∧
      r.txids.length * 32 * reading.copies ≤ r.txids.length * 32 + rest.length := by
  unfold parseRecord at h
  split at h
  · cases h
  · rename_i header stream1 h1
    split at h
    · cases h
    · rename_i rawCount stream2 h2
      split at h
      · cases h
      · rename_i raw stream3 h3
        simp only [Option.some.injEq, Prod.mk.injEq] at h
        obtain ⟨rfl, rfl⟩ := h
        have hlength : (chunksExact 32 raw.val).length = leValue rawCount.val := by
          rw [chunksExact_length, raw.property, Nat.mul_div_cancel _ (by decide)]
        have hremaining := readExact_length h3
        rw [← List.length_pos_iff, hlength]
        constructor
        · intro hfits
          rw [← hremaining]
          exact hfits header stream1 rawCount stream2 h1 (by rw [hverified]; rfl) h2
        · intro hfits header' stream1' rawCount' stream2' h1' _ h2'
          rw [h1] at h1'
          cases h1'
          rw [h2] at h2'
          cases h2'
          rw [hremaining]
          exact hfits

/-- Without a complete record, a request is made exactly for a count that the rest
of the input does not cover. -/
theorem requests_none {txid previous : Digest} {count : Int32} {found : Bool} {stream : Bytes}
    (h : parseRecord stream = none) :
    (∀ request ∈ (authorizedAndBuriedLoop crates build txid previous count found stream).requests,
      request.size ≤ reading.remaining request) ↔
      CountFits reading crates build previous stream := by
  unfold parseRecord at h
  rw [authorizedAndBuriedLoop]
  split
  · rename_i h1
    simp only [List.not_mem_nil, IsEmpty.forall_iff, implies_true, true_iff]
    intro header stream1 rawCount stream2 h1'
    rw [h1] at h1'
    cases h1'
  · rename_i block stream1 h1
    simp only [h1] at h
    split
    · rename_i hrefused
      simp only [List.not_mem_nil, IsEmpty.forall_iff, implies_true, true_iff]
      intro header stream1' rawCount stream2 h1' hverified
      rw [h1] at h1'
      cases h1'
      rw [hrefused] at hverified
      cases hverified
    · rename_i digest hverified
      split
      · rename_i h2
        simp only [List.not_mem_nil, IsEmpty.forall_iff, implies_true, true_iff]
        intro header stream1' rawCount stream2 h1' _ h2'
        rw [h1] at h1'
        cases h1'
        rw [h2] at h2'
        cases h2'
      · rename_i rawCount stream2 h2
        simp only [h2] at h
        simp only
        split
        · rename_i h3
          have hshort := readExact_none.mp h3
          simp only [List.mem_singleton, forall_eq, reading.remaining_first]
          constructor
          · intro hle
            exact absurd hle (Nat.not_le.mpr hshort)
          · intro hfits
            obtain ⟨-, hle⟩ := hfits block stream1 rawCount stream2 h1 (by rw [hverified]; rfl) h2
            exact Nat.le_trans (Nat.le_mul_of_pos_right _ reading.copies_pos) hle
        · rename_i raw stream3 h3
          simp only [h3] at h
          cases h

/-- From any state of the loop: no empty list among the verified records and no
request beyond the input, exactly when every count reached fits. -/
theorem loop_safe (txid previous : Digest) (count : Int32) (found : Bool) (stream : Bytes) :
    ((∀ r ∈ verifiedFrom crates build previous stream, r.txids ≠ []) ∧
      ∀ request ∈ (authorizedAndBuriedLoop crates build txid previous count found stream).requests,
        request.size ≤ reading.remaining request) ↔
      CountsFit reading crates build previous stream := by
  induction stream using parseRecords.induct generalizing previous count found with
  | case1 stream hnone =>
    have hrequests := @requests_none reading crates build txid previous count found stream hnone
    rw [verifiedFrom_none crates build hnone, countsFit_none reading crates build hnone,
      ← hrequests]
    simp
  | case2 stream r rest hsome ih =>
    cases haccept : verifyBlockHeader crates build r.header previous with
    | none =>
      rw [verifiedFrom_refused crates build hsome haccept, loop_refused crates build hsome haccept]
      simp [countsFit_refused reading crates build hsome haccept]
    | some digest =>
      rw [verifiedFrom_some crates build hsome haccept, loop_some crates build hsome haccept,
        countsFit_some reading crates build hsome haccept,
        countFits_some reading crates build hsome haccept,
        ← reading.recordRequests_le_iff r.txids.length rest.length]
      by_cases hempty : r.txids = []
      · simp [hempty]
      · by_cases hconsistent : r.consistent crates = true
        · rw [← ih digest (if found then count + 1 else count) (found || r.txids.contains txid)]
          simp only [Scan.after, if_neg hempty, if_pos hconsistent, List.mem_append,
            List.mem_cons, or_imp, forall_and, forall_eq]
          exact ⟨fun h => ⟨⟨hempty, h.2.1⟩, fun _ => h.1.2, fun _ => h.2.2⟩,
            fun h => ⟨⟨hempty, h.2.1 hconsistent⟩, h.1.2, h.2.2 hconsistent⟩⟩
        · simp only [Scan.after, if_neg hempty, if_neg hconsistent, List.append_nil,
            List.mem_singleton, forall_eq]
          exact ⟨fun h => ⟨⟨hempty, h.2⟩, fun h => absurd h hconsistent⟩,
            fun h => ⟨hempty, h.1.2⟩⟩

variable {reading} {crates} {build}

/-- A safe scan has met no count that does not fit. -/
theorem SafeScan.countsFit {txid : Digest} {blocks : Bytes}
    (h : SafeScan reading (zcashAuthorizedAndBuried crates build txid blocks)) :
    CountsFit reading crates build (checkpointBlockHash build) blocks := by
  obtain ⟨⟨count, houtcome, -⟩, hrequests⟩ := h
  rw [zcashAuthorizedAndBuried_outcome] at houtcome
  refine (loop_safe reading crates build txid _ 0 false blocks).mp ⟨fun r hr hnil => ?_, hrequests⟩
  rw [if_pos ⟨r, hr, hnil⟩] at houtcome
  cases houtcome

end

/-- On fewer than `2^31` records the verifier is safe exactly where the declared counts fit. -/
theorem authorized_and_buried_safe_iff (crates : Crates) (build : Build) (txid : Digest)
    (blocks : Bytes) (hrecords : (parseRecords blocks).length < 2 ^ 31) (reading : Reading) :
    SafeScan reading (zcashAuthorizedAndBuried crates build txid blocks) ↔
      CountsFit reading crates build (checkpointBlockHash build) blocks := by
  refine ⟨SafeScan.countsFit, fun hfits => ?_⟩
  obtain ⟨hnonempty, hrequests⟩ :=
    (loop_safe reading crates build txid (checkpointBlockHash build) 0 false blocks).mpr hfits
  have hempty : ¬ ∃ r ∈ verifiedRecords crates build blocks, r.txids = [] := by
    rintro ⟨r, hr, hnil⟩
    exact hnonempty r hr hnil
  have houtcome := zcashAuthorizedAndBuried_outcome crates build txid blocks
  rw [if_neg hempty] at houtcome
  have hdepth : burialDepth crates build txid blocks < 2 ^ 31 :=
    Nat.lt_of_le_of_lt (BurialDepth.burialDepth_le crates build txid blocks) hrecords
  have hcount : (Int32.ofNat (burialDepth crates build txid blocks)).toInt =
      (burialDepth crates build txid blocks : Int) := Int32.toInt_ofNat_of_lt hdepth
  refine ⟨⟨_, houtcome, ?_⟩, hrequests⟩
  rw [hcount]
  exact Int.natCast_nonneg _

/-- Three blocks. -/
theorem authorized_and_buried_safe_three :
    (SafeScan .following (zcashAuthorizedAndBuried zeroCrates zeroBuild (FixedBytes.zero 32)
        ((List.replicate 3 zeroRecord).flatMap Record.encode)) ↔
      CountsFit .following zeroCrates zeroBuild (checkpointBlockHash zeroBuild)
        ((List.replicate 3 zeroRecord).flatMap Record.encode)) ∧
    (SafeScan .unread (zcashAuthorizedAndBuried zeroCrates zeroBuild (FixedBytes.zero 32)
        ((List.replicate 3 zeroRecord).flatMap Record.encode)) ↔
      CountsFit .unread zeroCrates zeroBuild (checkpointBlockHash zeroBuild)
        ((List.replicate 3 zeroRecord).flatMap Record.encode)) := by
  have hfew : (parseRecords ((List.replicate 3 zeroRecord).flatMap Record.encode)).length <
      2 ^ 31 := by
    rw [parseRecords_encode _ (fun r hr => by rw [List.eq_of_mem_replicate hr]; decide)]
    decide
  exact ⟨authorized_and_buried_safe_iff zeroCrates zeroBuild _ _ hfew .following,
    authorized_and_buried_safe_iff zeroCrates zeroBuild _ _ hfew .unread⟩

/-- A verified header and the count of a list that does not fit into nothing. -/
theorem unsafe_of_unfit (reading : Reading) {n : Nat} (hn : n < 2 ^ 32)
    (hunfit : ¬ (0 < n ∧ n * 32 * reading.copies ≤ 0)) :
    ¬ SafeScan reading (zcashAuthorizedAndBuried zeroCrates zeroBuild (FixedBytes.zero 32)
      (FixedBytes.zero blockHeaderLength ++ (u32ToLeBytes n).val)) := by
  intro hscan
  have hhere := hscan.countsFit _ _ (.here _ _)
  rw [zeroCheckpoint] at hhere
  have hcount := readExact_append (u32ToLeBytes n) []
  rw [List.append_nil] at hcount
  have hbound := hhere _ _ _ _ (readExact_append _ _) (by rw [zeroHeader_verifies]; rfl) hcount
  rw [leValue_u32ToLeBytes n hn] at hbound
  exact hunfit hbound

/-- A verified header followed by a count of zero, and nothing else, panics; followed
by a count of one and nothing else, it requests 32 bytes of an input that has none left. -/
theorem authorized_and_buried_unsafe :
    (¬ SafeScan .following (zcashAuthorizedAndBuried zeroCrates zeroBuild (FixedBytes.zero 32)
        (FixedBytes.zero blockHeaderLength ++ (u32ToLeBytes 0).val)) ∧
      ¬ SafeScan .following (zcashAuthorizedAndBuried zeroCrates zeroBuild (FixedBytes.zero 32)
        (FixedBytes.zero blockHeaderLength ++ (u32ToLeBytes 1).val))) ∧
    ¬ SafeScan .unread (zcashAuthorizedAndBuried zeroCrates zeroBuild (FixedBytes.zero 32)
        (FixedBytes.zero blockHeaderLength ++ (u32ToLeBytes 0).val)) ∧
      ¬ SafeScan .unread (zcashAuthorizedAndBuried zeroCrates zeroBuild (FixedBytes.zero 32)
        (FixedBytes.zero blockHeaderLength ++ (u32ToLeBytes 1).val)) :=
  ⟨⟨unsafe_of_unfit .following (by decide) (by decide),
      unsafe_of_unfit .following (by decide) (by decide)⟩,
    unsafe_of_unfit .unread (by decide) (by decide),
    unsafe_of_unfit .unread (by decide) (by decide)⟩

end Auntie.Guarantees.ChainVerifierSafety
