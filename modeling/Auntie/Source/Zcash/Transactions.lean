import Mathlib.Data.UInt
import Auntie.Source.Build

/-!
# Settlement inputs of `zcash_ffi/src/transactions.rs`

Embeds `transactions.rs:131-258` and `336-350`: the Merkle paths file, the search for
the note of each party, `zcash_create_transaction` up to its builder, and
`zcash_deposited_amount`.

The crates are the fields of `Orchard`, and every definition is for all of them; the
builder, the proof and their randomness are the one function `assemble`. Of a bundle
only the actions are read. Sums of `u64` wrap, as in the release profile. Text printed
on the way is not represented.
-/

namespace Auntie.Source.Transactions

/-- `MerklePath::from_parts`. -/
structure MerklePath (MerkleHash : Type) where
  position : Nat
  path : List MerkleHash
  deriving DecidableEq

/-- `struct Advice`. -/
structure Advice (FullViewingKey Scalar : Type) where
  fvk : FullViewingKey
  alpha : Scalar
  deriving DecidableEq

/-- A note to spend, as the loop of `zcash_create_transaction` collects them. -/
structure Spend (Note MerkleHash FullViewingKey Scalar : Type) where
  note : Note
  path : MerklePath MerkleHash
  advice : Advice FullViewingKey Scalar
  deriving DecidableEq

/-- The crates `orchard` and `zcash_note_encryption`. -/
structure Orchard where
  SpendingKey : Type
  FullViewingKey : Type
  IncomingViewingKey : Type
  Scalar : Type
  Address : Type
  Action : Type
  Note : Type
  MerkleHash : Type
  PartialTransaction : Type
  noteCommitmentTreeDepth : Nat
  /-- `FullViewingKey::from`. -/
  fullViewingKey : SpendingKey → FullViewingKey
  /-- `to_ivk(Scope::External).prepare()`. -/
  toIvk : FullViewingKey → IncomingViewingKey
  /-- `try_note_decryption` under the domain of the action. -/
  tryNoteDecryption : IncomingViewingKey → Action → Option Note
  /-- `note.value().inner()`. -/
  value : Note → UInt64
  /-- `MerkleHashOrchard::from_bytes`. -/
  merkleHashFromBytes : FixedBytes 32 → Option MerkleHash
  /-- The builder and the prover, from the anchor, the spends and the outputs. -/
  assemble : MerkleHash → List (Spend Note MerkleHash FullViewingKey Scalar) →
    List (UInt64 × Address) → FixedBytes 512 → Option PartialTransaction

/-- What the C caller passes for each party: `number_of_players() + 1` values. -/
abbrev ForEachParty (build : Build) (α : Type) := { values : List α // values.length =
  build.numPlayers + 1 }

variable (orchard : Orchard)

/-- A bundle, as far as it is read here. -/
abbrev Transaction := List orchard.Action

abbrev Orchard.Advice := Transactions.Advice orchard.FullViewingKey orchard.Scalar
abbrev Orchard.MerklePath := Transactions.MerklePath orchard.MerkleHash
abbrev Orchard.Spend :=
  Transactions.Spend orchard.Note orchard.MerkleHash orchard.FullViewingKey orchard.Scalar

section Paths

abbrev rawAnchorSize : Nat := 32

def rawPathSize : Nat := 32 * orchard.noteCommitmentTreeDepth + 4

def parseMerklePath (chunk : Bytes) : Option orchard.MerklePath := do
  let path ← (chunksExact 32 (chunk.drop 4)).mapM orchard.merkleHashFromBytes
  return ⟨leValue (chunk.take 4), path⟩

def parseMerklePaths (merklePaths : Bytes) :
    Option (orchard.MerkleHash × List orchard.MerklePath) :=
  if merklePaths.length < rawAnchorSize then none
  else if (merklePaths.length - rawAnchorSize) % rawPathSize orchard ≠ 0 then none
  else do
    let anchor ← orchard.merkleHashFromBytes (FixedBytes.fit 32 merklePaths)
    let paths ← (chunksExact (rawPathSize orchard) (merklePaths.drop rawAnchorSize)).mapM
      fun chunk => parseMerklePath orchard chunk.val
    return (anchor, paths)

/-- A walk that may stop early has visited every element when it did not. -/
theorem mapM_length {α β : Type} {f : α → Option β} :
    ∀ {values : List α} {found : List β}, values.mapM f = some found →
      found.length = values.length := by
  intro values
  induction values with
  | nil =>
    intro found h
    simp only [List.mapM_nil, Option.pure_def, Option.some.injEq] at h
    subst h
    rfl
  | cons value rest ih =>
    intro found h
    simp only [List.mapM_cons, Option.bind_eq_bind, Option.bind_eq_some_iff, Option.pure_def,
      Option.some.injEq] at h
    obtain ⟨_, -, others, hothers, rfl⟩ := h
    rw [List.length_cons, List.length_cons, ih hothers]

/-- The number of paths a buffer has room for. -/
def pathCount (merklePaths : Bytes) : Nat :=
  (merklePaths.length - rawAnchorSize) / rawPathSize orchard

theorem parseMerklePaths_length {merklePaths : Bytes} {anchor : orchard.MerkleHash}
    {paths : List orchard.MerklePath}
    (h : parseMerklePaths orchard merklePaths = some (anchor, paths)) :
    paths.length = pathCount orchard merklePaths := by
  unfold parseMerklePaths at h
  split at h
  · cases h
  · split at h
    · cases h
    · simp only [Option.bind_eq_bind, Option.bind_eq_some_iff, Option.pure_def,
        Option.some.injEq, Prod.mk.injEq] at h
      obtain ⟨_, -, found, hfound, -, rfl⟩ := h
      rw [mapM_length hfound, chunksExact_length, List.length_drop, pathCount]

end Paths

section Slices

/-- What ends a parser before its last line. -/
inductive Stop where
  | rejected
  | panicked
  deriving DecidableEq

abbrev Parse := Except Stop

/-- `split_at`, which panics past the end. -/
def splitAt (bytes : Bytes) (mid : Nat) : Parse (Bytes × Bytes) :=
  if mid ≤ bytes.length then .ok (bytes.take mid, bytes.drop mid) else .error .panicked

/-- `try_into().unwrap()` into an array. -/
def tryInto (n : Nat) (bytes : Bytes) : Parse (FixedBytes n) :=
  if h : bytes.length = n then .ok ⟨bytes, h⟩ else .error .panicked

/-- `from_bytes`, and `return None` where there is nothing to unwrap. -/
def fromBytes (bytes : FixedBytes 32) : Parse orchard.MerkleHash :=
  match orchard.merkleHashFromBytes bytes with
  | some hash => .ok hash
  | none => .error .rejected

def pathNode (node : Bytes) : Parse orchard.MerkleHash := do
  let node ← tryInto 32 node
  fromBytes orchard node

/-- One entry; the last `unwrap` is that of the vector of nodes as an array. -/
def pathEntry (chunk : Bytes) : Parse orchard.MerklePath := do
  let (positionBytes, pathBytes) ← splitAt chunk 4
  let position ← tryInto 4 positionBytes
  let path ← ((chunksExact 32 pathBytes).map (·.val)).mapM (pathNode orchard)
  if path.length ≠ orchard.noteCommitmentTreeDepth then
    throw .panicked
  return ⟨leValue position.val, path⟩

/-- `parse_merkle_paths` with the slice operations that `parseMerklePaths` has no names for. -/
def parseMerklePathsSlices (merklePaths : Bytes) :
    Parse (orchard.MerkleHash × List orchard.MerklePath) := do
  if merklePaths.length < rawAnchorSize then
    throw .rejected
  if (merklePaths.length - rawAnchorSize) % rawPathSize orchard ≠ 0 then
    throw .rejected
  let (anchorBytes, pathsBytes) ← splitAt merklePaths rawAnchorSize
  let anchorBytes ← tryInto 32 anchorBytes
  let anchor ← fromBytes orchard anchorBytes
  let paths ← ((chunksExact (rawPathSize orchard) pathsBytes).map (·.val)).mapM (pathEntry orchard)
  return (anchor, paths)

end Slices

section Notes

/-- The note the action holds for the advice, if any. -/
def noteFor (advice : orchard.Advice) (action : orchard.Action) : Option orchard.Note :=
  orchard.tryNoteDecryption (orchard.toIvk advice.fvk) action

/-- `zip` stops at the shorter side. -/
def extractUniqueNote (actions : List orchard.Action) (paths : List orchard.MerklePath)
    (advice : orchard.Advice) : Option (orchard.Note × orchard.MerklePath) :=
  match (actions.zip paths).filterMap fun pair =>
    (noteFor orchard advice pair.1).map fun note => (note, pair.2) with
  | [pair] => some pair
  | _ => none

/-- The loop of `zcash_create_transaction`: `by_ref().take(..)` leaves the paths behind
those a bundle took to the bundles after it. -/
def extractNotes : List (Transaction orchard × orchard.Advice) → List orchard.MerklePath →
    Option (List orchard.Spend)
  | [], _ => some []
  | (input, advice) :: parties, merklePaths => do
    let (note, path) ← extractUniqueNote orchard input (merklePaths.take input.length) advice
    let notes ← extractNotes parties (merklePaths.drop input.length)
    return ⟨note, path, advice⟩ :: notes

def zcashCreateTransaction {build : Build} (inputs : ForEachParty build (Transaction orchard))
    (payouts : ForEachParty build UInt64) (payoutAddresses : ForEachParty build orchard.Address)
    (advices : ForEachParty build orchard.Advice) (merklePaths : Bytes)
    (memo : FixedBytes 512) : Option orchard.PartialTransaction := do
  let (anchor, paths) ← parseMerklePaths orchard merklePaths
  let notes ← extractNotes orchard (inputs.val.zip advices.val) paths
  orchard.assemble anchor notes (payouts.val.zip payoutAddresses.val) memo

def zcashDepositedAmount (transaction : Transaction orchard) (key : orchard.SpendingKey) :
    UInt64 :=
  let ivk := orchard.toIvk (orchard.fullViewingKey key)
  ((transaction.filterMap (orchard.tryNoteDecryption ivk)).map orchard.value).sum

end Notes

end Auntie.Source.Transactions
