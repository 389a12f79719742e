import Mathlib.Data.List.Forall2
import Auntie.Source.Zcash.Transactions

/-!
# The Merkle paths file

`parse_merkle_paths` accepts the concatenation of an anchor and of any number of entries, each a
position and the nodes of one path, and nothing else. None of its slice operations panics, and
writing out what was parsed gives the file back.
-/

namespace Auntie.Guarantees.MerklePaths
open Auntie.Source.Transactions

variable (orchard : Orchard)

section Statement

/-- An entry of the file: a position and the nodes of one path. -/
structure Entry where
  position : FixedBytes 4
  nodes : List (FixedBytes 32)

def Entry.bytes (entry : Entry) : Bytes := entry.position.val ++ entry.nodes.flatMap (·.val)

/-- The file of an anchor and of entries. -/
def fileBytes (anchor : FixedBytes 32) (entries : List Entry) : Bytes :=
  anchor.val ++ entries.flatMap Entry.bytes

/-- The entry has a node for each layer, all canonical, and is the path. -/
structure Denotes (entry : Entry) (path : orchard.MerklePath) : Prop where
  depth : entry.nodes.length = orchard.noteCommitmentTreeDepth
  position : path.position = leValue entry.position.val
  nodes : List.Forall₂ (fun node hash => orchard.merkleHashFromBytes node = some hash)
    entry.nodes path.path

/-- The bytes are the file of an anchor and paths. -/
def Formatted (merklePaths : Bytes) (anchor : orchard.MerkleHash) (paths : List orchard.MerklePath) :
    Prop :=
  ∃ (rawAnchor : FixedBytes 32) (entries : List Entry), merklePaths = fileBytes rawAnchor entries ∧
    orchard.merkleHashFromBytes rawAnchor = some anchor ∧
      List.Forall₂ (Denotes orchard) entries paths

/-- `to_bytes` is the inverse of `from_bytes` on canonical encodings. -/
structure Inverse (toBytes : orchard.MerkleHash → FixedBytes 32) : Prop where
  fromBytes : ∀ hash, orchard.merkleHashFromBytes (toBytes hash) = some hash
  toBytes : ∀ bytes hash, orchard.merkleHashFromBytes bytes = some hash → toBytes hash = bytes

variable {orchard} in
def pathBytes (toBytes : orchard.MerkleHash → FixedBytes 32) (path : orchard.MerklePath) : Bytes :=
  (u32ToLeBytes path.position).val ++ path.path.flatMap fun hash => (toBytes hash).val

variable {orchard} in
/-- The file a writer with `to_bytes` makes. -/
def encodeMerklePaths (toBytes : orchard.MerkleHash → FixedBytes 32) (anchor : orchard.MerkleHash)
    (paths : List orchard.MerklePath) : Bytes :=
  (toBytes anchor).val ++ paths.flatMap (pathBytes toBytes)

/-- A `MerklePath` of the crate: its position is a `u32`, its nodes an array. -/
structure Typed (path : orchard.MerklePath) : Prop where
  position : path.position < 2 ^ 32
  depth : path.path.length = orchard.noteCommitmentTreeDepth

end Statement

section Chunks

/-- A buffer of whole chunks is the concatenation of them. -/
theorem exists_chunks {n : Nat} : ∀ (count : Nat) (bytes : Bytes), bytes.length = n * count →
    ∃ chunks : List (FixedBytes n), chunks.length = count ∧ bytes = chunks.flatMap (·.val)
  | 0, bytes, h => ⟨[], rfl, List.length_eq_zero_iff.mp (by simpa using h)⟩
  | count + 1, bytes, h => by
    have hmul : n * (count + 1) = n * count + n := Nat.mul_succ n count
    have htake : (bytes.take n).length = n := by
      rw [List.length_take]
      omega
    have hdrop : (bytes.drop n).length = n * count := by
      rw [List.length_drop]
      omega
    obtain ⟨chunks, hcount, hrest⟩ := exists_chunks count (bytes.drop n) hdrop
    refine ⟨⟨bytes.take n, htake⟩ :: chunks, by rw [List.length_cons, hcount], ?_⟩
    rw [List.flatMap_cons, ← hrest]
    exact (List.take_append_drop n bytes).symm

theorem flatMap_length {n : Nat} (chunks : List (FixedBytes n)) :
    (chunks.flatMap (·.val)).length = n * chunks.length := by
  induction chunks with
  | nil => rfl
  | cons chunk chunks ih =>
    rw [List.flatMap_cons, List.length_append, chunk.property, ih, List.length_cons, Nat.mul_succ]
    omega

end Chunks

section Walk
variable {α β : Type}

theorem mapM_some_iff {f : α → Option β} {values : List α} {found : List β} :
    values.mapM f = some found ↔ List.Forall₂ (fun value result => f value = some result) values found := by
  induction values generalizing found with
  | nil =>
    rw [List.forall₂_nil_left_iff, List.mapM_nil]
    simp only [Option.pure_def, Option.some.injEq]
    exact eq_comm
  | cons value values ih =>
    rw [List.forall₂_cons_left_iff]
    simp only [List.mapM_cons, Option.bind_eq_bind, Option.bind_eq_some_iff, Option.pure_def,
      Option.some.injEq, ih]
    constructor
    · intro h
      obtain ⟨result, hresult, results, hresults, rfl⟩ := h
      exact ⟨result, results, hresult, hresults, rfl⟩
    · intro h
      obtain ⟨result, results, hresult, hresults, rfl⟩ := h
      exact ⟨result, hresult, results, hresults, rfl⟩

/-- The value of a parser that does not panic. -/
def accepted : Option α → Parse α
  | some value => .ok value
  | none => .error .rejected

theorem accepted_ne_panicked (found : Option α) : accepted found ≠ .error .panicked := by
  cases found with
  | none => simp [accepted]
  | some value => simp [accepted]

theorem accepted_eq_ok {found : Option α} {value : α} :
    accepted found = .ok value ↔ found = some value := by
  cases found with
  | none => simp [accepted]
  | some other => simp [accepted]

theorem mapM_accepted {f : α → Parse β} {g : α → Option β} {values : List α}
    (h : ∀ value ∈ values, f value = accepted (g value)) :
    values.mapM f = accepted (values.mapM g) := by
  induction values with
  | nil => rfl
  | cons value values ih =>
    have hfirst := h value List.mem_cons_self
    have hrest := ih fun other hother => h other (List.mem_cons_of_mem _ hother)
    rw [List.mapM_cons, List.mapM_cons, hfirst, hrest]
    cases g value with
    | none => rfl
    | some result =>
      cases values.mapM g with
      | none => rfl
      | some results => rfl

end Walk

section Slices
variable {orchard}

theorem pathNode_eq (node : FixedBytes 32) :
    pathNode orchard node.val = accepted (orchard.merkleHashFromBytes node) := by
  have hinto : tryInto 32 node.val = .ok node := dif_pos node.property
  rw [pathNode, hinto]
  change fromBytes orchard node = _
  unfold fromBytes accepted
  cases orchard.merkleHashFromBytes node with
  | none => rfl
  | some hash => rfl

theorem pathEntry_eq (chunk : FixedBytes (rawPathSize orchard)) :
    pathEntry orchard chunk.val = accepted (parseMerklePath orchard chunk.val) := by
  have hchunk : chunk.val.length = 32 * orchard.noteCommitmentTreeDepth + 4 := chunk.property
  have hsplit : splitAt chunk.val 4 = .ok (chunk.val.take 4, chunk.val.drop 4) :=
    if_pos (by omega)
  have htake : (chunk.val.take 4).length = 4 := by
    rw [List.length_take]
    omega
  have hinto : tryInto 4 (chunk.val.take 4) = .ok ⟨chunk.val.take 4, htake⟩ := dif_pos htake
  have hcount : (chunksExact 32 (chunk.val.drop 4)).length = orchard.noteCommitmentTreeDepth := by
    rw [chunksExact_length, List.length_drop]
    omega
  have hnodes : ((chunksExact 32 (chunk.val.drop 4)).map (·.val)).mapM (pathNode orchard) =
      accepted ((chunksExact 32 (chunk.val.drop 4)).mapM orchard.merkleHashFromBytes) := by
    rw [List.mapM_map]
    exact mapM_accepted fun node _ => pathNode_eq node
  simp only [pathEntry, parseMerklePath, hsplit, hinto, hnodes, bind, Except.bind, Option.bind]
  cases hpath : (chunksExact 32 (chunk.val.drop 4)).mapM orchard.merkleHashFromBytes with
  | none => rfl
  | some path =>
    have hdepth : path.length = orchard.noteCommitmentTreeDepth := (mapM_length hpath).trans hcount
    simp [accepted, hdepth, pure, Except.pure]

/-- From the two tests on the length on. -/
theorem parseMerklePathsSlices_eq (merklePaths : Bytes) :
    parseMerklePathsSlices orchard merklePaths = accepted (parseMerklePaths orchard merklePaths) := by
  unfold parseMerklePathsSlices parseMerklePaths
  by_cases hshort : merklePaths.length < rawAnchorSize
  · rw [if_pos hshort, if_pos hshort]
    rfl
  by_cases hwhole : (merklePaths.length - rawAnchorSize) % rawPathSize orchard ≠ 0
  · rw [if_neg hshort, if_pos hwhole, if_neg hshort, if_pos hwhole]
    rfl
  have hlong : rawAnchorSize ≤ merklePaths.length := not_lt.mp hshort
  have hsplit : splitAt merklePaths rawAnchorSize =
      .ok (merklePaths.take rawAnchorSize, merklePaths.drop rawAnchorSize) := if_pos hlong
  have htake : (merklePaths.take rawAnchorSize).length = 32 := by
    rw [List.length_take, Nat.min_eq_left hlong]
  have hinto : tryInto 32 (merklePaths.take rawAnchorSize) = .ok (FixedBytes.fit 32 merklePaths) := by
    rw [tryInto, dif_pos htake]
    congr 2
    exact (List.take_append_of_le_length hlong).symm
  have hpaths : ((chunksExact (rawPathSize orchard) (merklePaths.drop rawAnchorSize)).map
      (·.val)).mapM (pathEntry orchard) =
      accepted ((chunksExact (rawPathSize orchard) (merklePaths.drop rawAnchorSize)).mapM
        fun chunk => parseMerklePath orchard chunk.val) := by
    rw [List.mapM_map]
    exact mapM_accepted fun chunk _ => pathEntry_eq chunk
  simp only [hshort, if_false, hwhole, hsplit, hinto, hpaths, fromBytes, bind, Except.bind,
    Option.bind, pure, Except.pure]
  cases orchard.merkleHashFromBytes (FixedBytes.fit 32 merklePaths) with
  | none => rfl
  | some anchor =>
    simp only
    cases (chunksExact (rawPathSize orchard) (merklePaths.drop rawAnchorSize)).mapM
        fun chunk => parseMerklePath orchard chunk.val with
    | none => rfl
    | some paths => rfl

end Slices

section Format
variable {orchard}

/-- An entry is as long as the parser takes its chunks. -/
theorem Denotes.length {entry : Entry} {path : orchard.MerklePath} (h : Denotes orchard entry path) :
    entry.bytes.length = rawPathSize orchard := by
  rw [Entry.bytes, List.length_append, entry.position.property, flatMap_length, h.depth, rawPathSize]
  omega

/-- A chunk of that length is an entry. -/
theorem exists_entry (chunk : FixedBytes (rawPathSize orchard)) : ∃ entry : Entry,
    entry.bytes = chunk.val ∧ entry.nodes.length = orchard.noteCommitmentTreeDepth := by
  have hchunk : chunk.val.length = 32 * orchard.noteCommitmentTreeDepth + 4 := chunk.property
  have htake : (chunk.val.take 4).length = 4 := by
    rw [List.length_take]
    omega
  have hdrop : (chunk.val.drop 4).length = 32 * orchard.noteCommitmentTreeDepth := by
    rw [List.length_drop]
    omega
  obtain ⟨nodes, hcount, hnodes⟩ := exists_chunks _ _ hdrop
  refine ⟨⟨⟨chunk.val.take 4, htake⟩, nodes⟩, ?_, hcount⟩
  rw [Entry.bytes, ← hnodes]
  exact List.take_append_drop 4 chunk.val

/-- Reading the chunk of an entry gives the path it denotes. -/
theorem parseMerklePath_iff {entry : Entry} {path : orchard.MerklePath}
    (hdepth : entry.nodes.length = orchard.noteCommitmentTreeDepth) :
    parseMerklePath orchard entry.bytes = some path ↔ Denotes orchard entry path := by
  have htake : entry.bytes.take 4 = entry.position.val := List.take_left' entry.position.property
  have hdrop : entry.bytes.drop 4 = entry.nodes.flatMap (·.val) :=
    List.drop_left' entry.position.property
  simp only [parseMerklePath, htake, hdrop, chunksExact_flatMap (show 0 < 32 by decide),
    Option.bind_eq_bind, Option.bind_eq_some_iff, Option.pure_def, Option.some.injEq, mapM_some_iff]
  constructor
  · intro h
    obtain ⟨nodes, hnodes, rfl⟩ := h
    exact ⟨hdepth, rfl, hnodes⟩
  · intro h
    refine ⟨path.path, h.nodes, ?_⟩
    rw [← h.position]

theorem chunks_iff {bytes : Bytes} {paths : List orchard.MerklePath} :
    (∃ chunks : List (FixedBytes (rawPathSize orchard)), bytes = chunks.flatMap (·.val) ∧
        List.Forall₂ (fun chunk path => parseMerklePath orchard chunk.val = some path) chunks paths) ↔
      ∃ entries : List Entry, bytes = entries.flatMap Entry.bytes ∧
        List.Forall₂ (Denotes orchard) entries paths := by
  induction paths generalizing bytes with
  | nil => simp
  | cons path paths ih =>
    constructor
    · intro h
      obtain ⟨chunks, rfl, hchunks⟩ := h
      obtain ⟨chunk, chunks, hparse, hrest, rfl⟩ := List.forall₂_cons_right_iff.mp hchunks
      obtain ⟨entries, hbytes, hentries⟩ := ih.mp ⟨chunks, rfl, hrest⟩
      obtain ⟨entry, hentry, hdepth⟩ := exists_entry chunk
      rw [← hentry] at hparse
      refine ⟨entry :: entries, ?_, .cons ((parseMerklePath_iff hdepth).mp hparse) hentries⟩
      rw [List.flatMap_cons, List.flatMap_cons, hentry, hbytes]
    · intro h
      obtain ⟨entries, rfl, hentries⟩ := h
      obtain ⟨entry, entries, hentry, hrest, rfl⟩ := List.forall₂_cons_right_iff.mp hentries
      obtain ⟨chunks, hbytes, hchunks⟩ := ih.mpr ⟨entries, rfl, hrest⟩
      refine ⟨⟨entry.bytes, hentry.length⟩ :: chunks, ?_, .cons ?_ hchunks⟩
      · rw [List.flatMap_cons, List.flatMap_cons, hbytes]
      · exact (parseMerklePath_iff hentry.depth).mpr hentry

theorem parseMerklePaths_iff {merklePaths : Bytes} {anchor : orchard.MerkleHash}
    {paths : List orchard.MerklePath} :
    parseMerklePaths orchard merklePaths = some (anchor, paths) ↔
      Formatted orchard merklePaths anchor paths := by
  constructor
  · intro h
    unfold parseMerklePaths at h
    split at h
    · cases h
    rename_i hshort
    have hlong : rawAnchorSize ≤ merklePaths.length := not_lt.mp hshort
    split at h
    · cases h
    rename_i hwhole
    simp only [Option.bind_eq_bind, Option.bind_eq_some_iff, Option.pure_def, Option.some.injEq,
      Prod.mk.injEq, mapM_some_iff] at h
    obtain ⟨_, hanchor, _, hpaths, rfl, rfl⟩ := h
    obtain ⟨count, hcount⟩ := Nat.dvd_of_mod_eq_zero (not_not.mp hwhole)
    have hdrop : (merklePaths.drop rawAnchorSize).length = rawPathSize orchard * count := by
      rw [List.length_drop, hcount]
    obtain ⟨chunks, _, hchunks⟩ := exists_chunks _ _ hdrop
    have hpositive : 0 < rawPathSize orchard := Nat.succ_pos _
    rw [hchunks, chunksExact_flatMap hpositive] at hpaths
    obtain ⟨entries, hentries, hdenotes⟩ := chunks_iff.mp ⟨chunks, hchunks, hpaths⟩
    refine ⟨FixedBytes.fit 32 merklePaths, entries, ?_, hanchor, hdenotes⟩
    rw [fileBytes, ← hentries]
    have hfit : (FixedBytes.fit 32 merklePaths).val = merklePaths.take rawAnchorSize :=
      List.take_append_of_le_length hlong
    rw [hfit, List.take_append_drop]
  · intro h
    obtain ⟨rawAnchor, entries, rfl, hanchor, hdenotes⟩ := h
    obtain ⟨chunks, hbytes, hpaths⟩ := chunks_iff.mpr ⟨entries, rfl, hdenotes⟩
    have hpositive : 0 < rawPathSize orchard := Nat.succ_pos _
    have hlength : (fileBytes rawAnchor entries).length =
        rawAnchorSize + rawPathSize orchard * chunks.length := by
      rw [fileBytes, List.length_append, rawAnchor.property, hbytes, flatMap_length]
    have hfit : FixedBytes.fit 32 (fileBytes rawAnchor entries) = rawAnchor := by
      apply Subtype.ext
      have hsame : (fileBytes rawAnchor entries ++ List.replicate 32 0).take 32 = rawAnchor.val := by
        rw [fileBytes, List.append_assoc]
        exact List.take_left' rawAnchor.property
      exact hsame
    have hdrop : (fileBytes rawAnchor entries).drop rawAnchorSize = chunks.flatMap (·.val) := by
      rw [← hbytes]
      exact List.drop_left' rawAnchor.property
    have hshort : ¬ (fileBytes rawAnchor entries).length < rawAnchorSize := by
      rw [hlength]
      omega
    have hwhole : ((fileBytes rawAnchor entries).length - rawAnchorSize) % rawPathSize orchard = 0 := by
      rw [hlength, Nat.add_sub_cancel_left, Nat.mul_mod_right]
    have hfound := mapM_some_iff.mpr hpaths
    rw [parseMerklePaths, if_neg hshort, if_neg (not_not.mpr hwhole), hfit, hdrop,
      chunksExact_flatMap hpositive, hanchor]
    simp only [Option.bind_eq_bind, Option.bind_some, hfound, Option.pure_def]

end Format

section RoundTrip
variable {orchard} {toBytes : orchard.MerkleHash → FixedBytes 32}

theorem u32ToLeBytes_leValue (bytes : FixedBytes 4) : u32ToLeBytes (leValue bytes.val) = bytes := by
  apply Subtype.ext
  have hbytes := leBytes_leValue bytes.val
  rwa [bytes.property] at hbytes

theorem Inverse.nodes (h : Inverse orchard toBytes) {nodes : List (FixedBytes 32)}
    {hashes : List orchard.MerkleHash}
    (hnodes : List.Forall₂ (fun node hash => orchard.merkleHashFromBytes node = some hash)
      nodes hashes) : hashes.map toBytes = nodes := by
  induction hnodes with
  | nil => rfl
  | cons hnode _ ih => rw [List.map_cons, ih, h.toBytes _ _ hnode]

theorem Inverse.entry (h : Inverse orchard toBytes) {entry : Entry} {path : orchard.MerklePath}
    (hdenotes : Denotes orchard entry path) : pathBytes toBytes path = entry.bytes := by
  rw [pathBytes, hdenotes.position, u32ToLeBytes_leValue, Entry.bytes, ← h.nodes hdenotes.nodes,
    List.flatMap_map]

/-- What was parsed is written out as it was read. -/
theorem Inverse.encode (h : Inverse orchard toBytes) {merklePaths : Bytes}
    {anchor : orchard.MerkleHash} {paths : List orchard.MerklePath}
    (hformatted : Formatted orchard merklePaths anchor paths) :
    encodeMerklePaths toBytes anchor paths = merklePaths := by
  obtain ⟨rawAnchor, entries, rfl, hanchor, hdenotes⟩ := hformatted
  rw [encodeMerklePaths, fileBytes, h.toBytes _ _ hanchor]
  congr 1
  induction hdenotes with
  | nil => rfl
  | cons hentry _ ih => rw [List.flatMap_cons, List.flatMap_cons, ih, h.entry hentry]

/-- A path as an entry of the file. -/
def entryOf (toBytes : orchard.MerkleHash → FixedBytes 32) (path : orchard.MerklePath) : Entry :=
  ⟨u32ToLeBytes path.position, path.path.map toBytes⟩

theorem Inverse.denotes (h : Inverse orchard toBytes) {path : orchard.MerklePath}
    (htyped : Typed orchard path) : Denotes orchard (entryOf toBytes path) path where
  depth := by rw [entryOf, List.length_map, htyped.depth]
  position := (leValue_u32ToLeBytes path.position htyped.position).symm
  nodes := by
    rw [entryOf, List.forall₂_map_left_iff, List.forall₂_same]
    exact fun hash _ => h.fromBytes hash

/-- What is written out is in the format. -/
theorem Inverse.formatted (h : Inverse orchard toBytes) (anchor : orchard.MerkleHash)
    {paths : List orchard.MerklePath} (htyped : ∀ path ∈ paths, Typed orchard path) :
    Formatted orchard (encodeMerklePaths toBytes anchor paths) anchor paths := by
  refine ⟨toBytes anchor, paths.map (entryOf toBytes), ?_, h.fromBytes anchor, ?_⟩
  · rw [encodeMerklePaths, fileBytes, List.flatMap_map]
    congr 1
    apply List.flatMap_congr
    intro path _
    rw [Entry.bytes, entryOf, pathBytes, List.flatMap_map]
  · rw [List.forall₂_map_left_iff, List.forall₂_same]
    exact fun path hpath => h.denotes (htyped path hpath)

end RoundTrip

/-- The parser accepts the format and nothing else, and returns what the file holds; it never
panics; writing out what was parsed gives the file, and parsing what was written gives the anchor
and the paths. -/
theorem merkle_paths_parsed {toBytes : orchard.MerkleHash → FixedBytes 32}
    (hinverse : Inverse orchard toBytes) (merklePaths : Bytes) :
    parseMerklePathsSlices orchard merklePaths = accepted (parseMerklePaths orchard merklePaths) ∧
      parseMerklePathsSlices orchard merklePaths ≠ .error .panicked ∧
      (∀ anchor paths, parseMerklePathsSlices orchard merklePaths = .ok (anchor, paths) ↔
        Formatted orchard merklePaths anchor paths) ∧
      (∀ anchor paths, parseMerklePathsSlices orchard merklePaths = .ok (anchor, paths) →
        encodeMerklePaths toBytes anchor paths = merklePaths) ∧
      ∀ anchor paths, (∀ path ∈ paths, Typed orchard path) →
        parseMerklePathsSlices orchard (encodeMerklePaths toBytes anchor paths) =
          .ok (anchor, paths) := by
  have hparsed : ∀ merklePaths anchor paths,
      parseMerklePathsSlices orchard merklePaths = .ok (anchor, paths) ↔
        Formatted orchard merklePaths anchor paths := by
    intro merklePaths anchor paths
    rw [parseMerklePathsSlices_eq, accepted_eq_ok, parseMerklePaths_iff]
  refine ⟨parseMerklePathsSlices_eq merklePaths, ?_, hparsed merklePaths, ?_, ?_⟩
  · rw [parseMerklePathsSlices_eq]
    exact accepted_ne_panicked _
  · intro anchor paths h
    exact hinverse.encode ((hparsed _ _ _).mp h)
  · intro anchor paths htyped
    exact (hparsed _ _ _).mpr (hinverse.formatted anchor htyped)

section Examples

/-- Every encoding of a node is canonical, and nothing else is of interest. -/
abbrev plainHashes : Orchard where
  SpendingKey := Unit
  FullViewingKey := Unit
  IncomingViewingKey := Unit
  Scalar := Unit
  Address := Unit
  Action := Unit
  Note := Unit
  MerkleHash := FixedBytes 32
  PartialTransaction := Unit
  noteCommitmentTreeDepth := 32
  fullViewingKey := id
  toIvk := id
  tryNoteDecryption := fun _ _ => none
  value := fun _ => 0
  merkleHashFromBytes := some
  assemble := fun _ _ _ _ => none

def onePath : plainHashes.MerklePath := ⟨7, List.replicate 32 (FixedBytes.zero 32)⟩

theorem merkle_paths_parsed_one : Inverse plainHashes id ∧
    parseMerklePathsSlices plainHashes
        (encodeMerklePaths id (FixedBytes.zero 32 : plainHashes.MerkleHash) [onePath]) =
      .ok (FixedBytes.zero 32, [onePath]) := by
  have hinverse : Inverse plainHashes id := by
    constructor
    · exact fun _ => rfl
    · exact fun _ _ h => (Option.some.inj h).symm
  have htyped : ∀ path ∈ [onePath], Typed plainHashes path := by
    intro path hpath
    obtain rfl : path = onePath := List.mem_singleton.mp hpath
    exact ⟨by decide, List.length_replicate⟩
  obtain ⟨_, _, _, _, hround⟩ := merkle_paths_parsed plainHashes hinverse []
  exact ⟨hinverse, hround _ _ htyped⟩

end Examples

end Auntie.Guarantees.MerklePaths
