import Auntie.Guarantees.BurialDepth
import Auntie.Source.Player.Entry

/-!
# The two chain verifiers agree

A settlement that `zcash_authorized_and_buried` finds under `c` blocks stands on a
chain of at least `c + 1` headers that `zcash_blocks_since_checkpoint` counts. So
as long as the delay of a settlement is no shorter than that of a refund, whoever can
settle on a chain could already have been refunded on its headers.
-/

namespace Auntie.Guarantees.VerifiersAgree
open Auntie.Source Auntie.Source.Blocks Auntie.Chain Auntie.Interaction

/-- The headers of the complete records at the front of the input. -/
def headersOf (blocks : Bytes) : Bytes :=
  (parseRecords blocks).flatMap fun r => r.header.val

section
variable (crates : Crates) (build : Build)

theorem countedHeaders_headersOf (blocks : Bytes) :
    countedHeaders crates build (headersOf blocks) =
      acceptedPrefix (verifyBlockHeader crates build) (checkpointBlockHash build)
        ((parseRecords blocks).map Record.header) := by
  have hmap : headersOf blocks =
      ((parseRecords blocks).map Record.header).flatMap fun header => header.val := by
    rw [headersOf, List.flatMap_map]
  rw [countedHeaders, hmap, chunksExact_flatMap (by decide)]

/-- The headers of the verified records are counted. -/
theorem verifiedRecords_counted (blocks : Bytes) :
    (verifiedRecords crates build blocks).length ≤
      (countedHeaders crates build (headersOf blocks)).length := by
  have hlinked : Linked (verifyBlockHeader crates build) (checkpointBlockHash build)
      ((verifiedRecords crates build blocks).map Record.header) :=
    (linked_map _ Record.header _ _).mpr (verifiedRecords_linked crates build blocks)
  have hfront : (verifiedRecords crates build blocks).map Record.header <+:
      (parseRecords blocks).map Record.header :=
    (verifiedRecords_prefixOf crates build blocks).map Record.header
  rw [countedHeaders_headersOf, ← List.length_map Record.header]
  exact (hlinked.prefix_acceptedPrefix _ hfront).length_le

theorem countedHeaders_le (blocks : Bytes) :
    (countedHeaders crates build (headersOf blocks)).length ≤ (parseRecords blocks).length := by
  rw [countedHeaders_headersOf, ← List.length_map Record.header]
  exact (acceptedPrefix_prefixOf _ _ _).length_le

variable {crates} {build} {txid : Digest} {blocks : Bytes} {count : Int32}

/-- The count of the headers, as an `i32`. -/
theorem blocksSinceCheckpoint_headersOf (hrecords : (parseRecords blocks).length < 2 ^ 31) :
    (zcashBlocksSinceCheckpoint crates build (headersOf blocks)).toInt =
      (countedHeaders crates build (headersOf blocks)).length := by
  rw [zcashBlocksSinceCheckpoint_eq]
  exact Int32.toInt_ofNat_of_lt
    (Nat.lt_of_le_of_lt (countedHeaders_le crates build blocks) hrecords)

theorem authorizedAndBuried_toInt (hrecords : (parseRecords blocks).length < 2 ^ 31)
    (h : (zcashAuthorizedAndBuried crates build txid blocks).outcome = .returned count) :
    count.toInt = burialDepth crates build txid blocks := by
  rw [zcashAuthorizedAndBuried_outcome] at h
  split at h
  · cases h
  · cases h
    exact Int32.toInt_ofNat_of_lt
      (Nat.lt_of_le_of_lt (BurialDepth.burialDepth_le crates build txid blocks) hrecords)

/-- A block under `c` others stands on a counted chain of `c + 1`. -/
theorem buried_counted (hrecords : (parseRecords blocks).length < 2 ^ 31)
    (h : (zcashAuthorizedAndBuried crates build txid blocks).outcome = .returned count)
    (hcount : 1 ≤ count.toInt) :
    count.toInt + 1 ≤ (zcashBlocksSinceCheckpoint crates build (headersOf blocks)).toInt := by
  have hdepth := authorizedAndBuried_toInt hrecords h
  obtain ⟨before, r, after, hsplit, -, -, hafter⟩ :=
    BurialDepth.burialDepth_pos crates build (show 0 < burialDepth crates build txid blocks by omega)
  have hcounted := verifiedRecords_counted crates build blocks
  rw [hsplit, List.length_append, List.length_cons] at hcounted
  rw [blocksSinceCheckpoint_headersOf hrecords]
  omega

end

/-- A settlement that succeeds has passed its chain check. -/
theorem settled_passed {dep : Deployment} {context : Pointer} {blocks : Bytes}
    {globals last : Player.Globals} {events : List (Event (Call Player.Callback))}
    (h : Exec (Player.ecallSettle dep context blocks) globals events last (some 0)) :
    ∃ count, (zcashAuthorizedAndBuried dep.crates dep.build globals.settlementTxid
      blocks).outcome = .returned count ∧ chainError dep.build.settleDelayBlocks count = none := by
  by_contra hrefused
  let mon : Monitor (Call Player.Callback) Player.Globals Unit := {}
  have hwp : wp mon (fun ret _ _ => ret ≠ 0) (Player.ecallSettle dep context blocks) globals () := by
    simp only [Player.ecallSettle, wp_bind, wp_get, wp_ite, wp_pure]
    refine ⟨fun _ => by decide, fun _ => ?_⟩
    refine Player.ecallSettleImpl_refused
      (fun count houtcome hchain => hrefused ⟨count, houtcome, hchain⟩) trivial fun error herror => ?_
    exact ⟨fun hzero => absurd hzero herror, fun _ => herror⟩
  exact h.returned hwp rfl

/-- The two verifiers agree, and so do the two delays: block data with fewer than `2^31`
records on which a settlement succeeds satisfies the refund with its headers alone. -/
theorem settle_implies_refund (dep : Deployment) :
    (∀ (txid : Digest) (blocks : Bytes) (count : Int32), (parseRecords blocks).length < 2 ^ 31 →
      (zcashAuthorizedAndBuried dep.crates dep.build txid blocks).outcome = .returned count →
      1 ≤ count.toInt →
      count.toInt + 1 ≤
        (zcashBlocksSinceCheckpoint dep.crates dep.build (headersOf blocks)).toInt) ∧
    (dep.build.refundDelayBlocks ≤ dep.build.settleDelayBlocks →
      ∀ (context : Pointer) (blocks : Bytes) (globals last : Player.Globals)
        (events : List (Event (Call Player.Callback))), (parseRecords blocks).length < 2 ^ 31 →
      Exec (Player.ecallSettle dep context blocks) globals events last (some 0) →
      chainError dep.build.refundDelayBlocks
        (zcashBlocksSinceCheckpoint dep.crates dep.build (headersOf blocks)) = none) := by
  refine ⟨fun txid blocks count hrecords h hcount => buried_counted hrecords h hcount, ?_⟩
  intro hdelays context blocks globals last events hrecords hsettled
  obtain ⟨count, houtcome, hchain⟩ := settled_passed hsettled
  have hcounted : (zcashBlocksSinceCheckpoint dep.crates dep.build (headersOf blocks)).toInt =
      (countedHeaders dep.crates dep.build (headersOf blocks)).length :=
    blocksSinceCheckpoint_headersOf hrecords
  rw [chainError_none] at hchain ⊢
  by_cases hcount : 1 ≤ count.toInt
  · have hmore := buried_counted hrecords houtcome hcount
    omega
  · omega

section Examples

theorem parseRecords_zeroBlocks (m : Nat) :
    parseRecords (zeroBlocks m) = List.replicate (m + 1) zeroRecord :=
  parseRecords_encode _ fun r hr => by
    rw [List.eq_of_mem_replicate hr]
    decide

/-- A block under two others is the first of three counted headers, and the chain of a
settlement with the delay of the `Makefile` is long enough for a refund. -/
theorem settle_implies_refund_zero :
    3 ≤ (zcashBlocksSinceCheckpoint zeroCrates zeroBuild (headersOf (zeroBlocks 2))).toInt ∧
    chainError 40 (zcashBlocksSinceCheckpoint zeroCrates zeroBuild (headersOf (zeroBlocks 80))) =
      none := by
  have hrecords (m : Nat) (hm : m + 1 < 2 ^ 31) : (parseRecords (zeroBlocks m)).length < 2 ^ 31 := by
    rw [parseRecords_zeroBlocks, List.length_replicate]
    exact hm
  let wallet : Wallet := ⟨1, 1, 1⟩
  let confirmed : Player.Globals :=
    { state := .confirmedDeposits, depositWallet := some wallet, payoutWallet := some wallet }
  have hburied : (zcashAuthorizedAndBuried zeroDeployment.crates zeroDeployment.build
      confirmed.settlementTxid (zeroBlocks 80)).outcome = .returned (Int32.ofNat 80) :=
    zeroBlocks_buried 80
  have hwallet : confirmed.depositWallet = some wallet := rfl
  have hpayout : confirmed.payoutWallet = some wallet := rfl
  obtain ⟨⟨before, op, events, last, result⟩, hvalid, rfl, rfl, rfl, -⟩ :=
    Player.ecallSettle_releases 0 (.inl rfl) hburied (by decide) hwallet hpayout
      (FixedBytes.zero 32)
  obtain ⟨hagree, hrefund⟩ := settle_implies_refund zeroDeployment
  refine ⟨?_, hrefund (by decide) 0 (zeroBlocks 80) confirmed last events
    (hrecords 80 (by decide)) hvalid⟩
  exact hagree (FixedBytes.zero 32) (zeroBlocks 2) (Int32.ofNat 2) (hrecords 2 (by decide))
    (zeroBlocks_buried 2) (by decide)

end Examples

end Auntie.Guarantees.VerifiersAgree
