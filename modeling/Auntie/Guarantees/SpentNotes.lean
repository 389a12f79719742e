import Auntie.Source.Zcash.Transactions

/-!
# The note spent for a party is the whole deposit

`zcash_create_transaction` searches the bundle of each party for the one note that
credits the deposit address, and attaches to it a Merkle path from the operator's host.
Where the paths are as many as the actions, one action of the bundle holds such a note,
its value is what `zcash_deposited_amount` reports, and its path is the one at the index
of the action. The number of paths is not checked, and `zip` stops at the shorter side:
a bundle short of paths is searched only as far as they reach.
-/

namespace Auntie.Guarantees.SpentNotes
open Auntie.Source Auntie.Source.Transactions
variable (orchard : Orchard)

section Statement

/-- Actions of the bundles before the given one. -/
def actionsBefore (inputs : List (Transaction orchard)) (index : Nat) : Nat :=
  ((inputs.take index).map List.length).sum

/-- One action of the bundle is addressed to the advice, the note spent is its note with
the path at the index of the action, and its value is the amount deposited. -/
def SpendsDeposit (input : Transaction orchard) (advice : orchard.Advice) (before : Nat)
    (paths : List orchard.MerklePath) (spend : orchard.Spend) : Prop :=
  ∃ (position : Nat) (action : orchard.Action), input[position]? = some action ∧
    (∀ (index : Nat) (other : orchard.Action), input[index]? = some other →
      ((noteFor orchard advice other).isSome ↔ index = position)) ∧
    noteFor orchard advice action = some spend.note ∧
    paths[before + position]? = some spend.path ∧ spend.advice = advice ∧
    ∀ key, orchard.fullViewingKey key = advice.fvk →
      zcashDepositedAmount orchard input key = orchard.value spend.note

variable {build : Build} (inputs : ForEachParty build (Transaction orchard))
  (advices : ForEachParty build orchard.Advice) (merklePaths : Bytes)

/-- What a call that gets past the extraction of the notes has spent. -/
def SpendsWhatWasCredited : Prop :=
  ∀ anchor paths notes, parseMerklePaths orchard merklePaths = some (anchor, paths) →
    extractNotes orchard (inputs.val.zip advices.val) paths = some notes →
      (∀ (k : Nat) (input : Transaction orchard) (advice : orchard.Advice),
        inputs.val[k]? = some input → advices.val[k]? = some advice →
        ∃ spend, notes[k]? = some spend ∧
          SpendsDeposit orchard input advice (actionsBefore orchard inputs.val k) paths spend) ∧
      paths.length = actionsBefore orchard inputs.val (build.numPlayers + 1)

/-- Some party has no note, or several, among the actions that there are paths for. -/
def SomeExtractionFails : Prop :=
  ∃ (k : Nat) (input : Transaction orchard) (advice : orchard.Advice),
    inputs.val[k]? = some input ∧ advices.val[k]? = some advice ∧
    (input.take (pathCount orchard merklePaths - actionsBefore orchard inputs.val k)).countP
      (fun action => (noteFor orchard advice action).isSome) ≠ 1

end Statement

section Extraction
variable {orchard} {advice : orchard.Advice}

/-- The pairs that remain are the notes of the actions that met a path. -/
theorem matched_notes (actions : List orchard.Action) (paths : List orchard.MerklePath) :
    ((actions.zip paths).filterMap fun pair =>
      (noteFor orchard advice pair.1).map fun note => (note, pair.2)).map Prod.fst =
      (actions.take paths.length).filterMap (noteFor orchard advice) := by
  induction actions generalizing paths with
  | nil => simp
  | cons action actions ih =>
    cases paths with
    | nil => simp
    | cons path paths =>
      rw [List.zip_cons_cons, List.length_cons, List.take_succ_cons]
      cases hnote : noteFor orchard advice action with
      | none =>
        rw [List.filterMap_cons_none (by simp [hnote]), List.filterMap_cons_none hnote, ih]
      | some note =>
        rw [List.filterMap_cons_some (b := (note, path)) (by simp [hnote]),
          List.filterMap_cons_some hnote, List.map_cons, ih]

theorem extractUniqueNote_some {actions : List orchard.Action} {paths : List orchard.MerklePath}
    {found : orchard.Note × orchard.MerklePath} :
    extractUniqueNote orchard actions paths advice = some found ↔
      ((actions.zip paths).filterMap fun pair =>
        (noteFor orchard advice pair.1).map fun note => (note, pair.2)) = [found] := by
  unfold extractUniqueNote
  split
  · rename_i pair hpair
    rw [hpair]
    simp
  · rename_i hother
    simp only [reduceCtorEq, false_iff]
    exact hother found

/-- The search succeeds when one action that meets a path holds a note. -/
theorem extractUniqueNote_isSome {actions : List orchard.Action}
    {paths : List orchard.MerklePath} :
    (extractUniqueNote orchard actions paths advice).isSome ↔
      (actions.take paths.length).countP
        (fun action => (noteFor orchard advice action).isSome) = 1 := by
  rw [← List.length_filterMap_eq_countP, ← matched_notes, List.length_map,
    List.length_eq_one_iff, Option.isSome_iff_exists]
  simp only [extractUniqueNote_some]

/-- With a path for every action the search has seen the whole bundle. -/
theorem extractUniqueNote_position {actions : List orchard.Action}
    {paths : List orchard.MerklePath} {note : orchard.Note} {path : orchard.MerklePath}
    (henough : actions.length ≤ paths.length)
    (h : extractUniqueNote orchard actions paths advice = some (note, path)) :
    ∃ (position : Nat) (action : orchard.Action), actions[position]? = some action ∧
      (∀ (index : Nat) (other : orchard.Action), actions[index]? = some other →
        ((noteFor orchard advice other).isSome ↔ index = position)) ∧
      noteFor orchard advice action = some note ∧ paths[position]? = some path := by
  obtain ⟨front, ⟨action, path'⟩, back, hsplit, hfront, hfound, hback⟩ :=
    List.filterMap_eq_cons_iff.mp (extractUniqueNote_some.mp h)
  obtain ⟨note', hnote, heq⟩ := Option.map_eq_some_iff.mp hfound
  obtain ⟨rfl, rfl⟩ := Prod.mk.inj heq
  have hpair : (actions.zip paths)[front.length]? = some (action, path') := by
    rw [hsplit, List.getElem?_append_right le_rfl, Nat.sub_self, List.getElem?_cons_zero]
  obtain ⟨haction, hpath⟩ := List.getElem?_zip_eq_some.mp hpair
  refine ⟨front.length, action, haction, ?_, hnote, hpath⟩
  intro index other hother
  have hindex : index < paths.length :=
    ((List.getElem?_eq_some_iff.mp hother).1).trans_le henough
  have hzip : (actions.zip paths)[index]? = some (other, paths[index]) :=
    List.getElem?_zip_eq_some.mpr ⟨hother, List.getElem?_eq_getElem hindex⟩
  rw [hsplit] at hzip
  constructor
  · intro hsome
    by_contra hne
    -- the other pairs were dropped, on either side of the one that stayed
    have hdropped : (noteFor orchard advice other).map (fun note => (note, paths[index])) =
        none := by
      rcases Nat.lt_or_gt_of_ne hne with hlt | hgt
      · rw [List.getElem?_append_left hlt] at hzip
        exact hfront _ (List.mem_of_getElem? hzip)
      · obtain ⟨later, hlater⟩ : ∃ later, index - front.length = later + 1 :=
          ⟨index - front.length - 1, by omega⟩
        rw [List.getElem?_append_right hgt.le, hlater, List.getElem?_cons_succ] at hzip
        exact List.filterMap_eq_nil_iff.mp hback _ (List.mem_of_getElem? hzip)
    rw [Option.map_eq_none_iff] at hdropped
    rw [hdropped] at hsome
    cases hsome
  · intro heq
    subst heq
    rw [hother] at haction
    cases haction
    rw [hnote]
    rfl

/-- Without another note in the bundle the sum of `zcash_deposited_amount` is its value. -/
theorem zcashDepositedAmount_unique {actions : List orchard.Action}
    {paths : List orchard.MerklePath} {note : orchard.Note} {path : orchard.MerklePath}
    (henough : actions.length ≤ paths.length)
    (h : extractUniqueNote orchard actions paths advice = some (note, path))
    {key : orchard.SpendingKey} (hkey : orchard.fullViewingKey key = advice.fvk) :
    zcashDepositedAmount orchard actions key = orchard.value note := by
  have hnotes : _ = (actions.take paths.length).filterMap (noteFor orchard advice) :=
    matched_notes actions paths
  rw [extractUniqueNote_some.mp h, List.take_of_length_le henough] at hnotes
  have hsame : orchard.tryNoteDecryption (orchard.toIvk (orchard.fullViewingKey key)) =
      noteFor orchard advice := by
    rw [hkey]
    rfl
  simp only [zcashDepositedAmount, hsame, ← hnotes, List.map_cons, List.map_nil, List.sum_cons,
    List.sum_nil, UInt64.add_zero]

end Extraction

section Loop
variable {orchard}

theorem actionsBefore_cons (input : Transaction orchard) (inputs : List (Transaction orchard))
    (index : Nat) :
    actionsBefore orchard (input :: inputs) (index + 1) =
      input.length + actionsBefore orchard inputs index := by
  simp [actionsBefore]

/-- The actions of a bundle lie between those before it and all of them. -/
theorem actionsBefore_add_le {inputs : List (Transaction orchard)} {index count : Nat}
    {input : Transaction orchard} (h : inputs[index]? = some input) (hcount : index < count) :
    actionsBefore orchard inputs index + input.length ≤ actionsBefore orchard inputs count := by
  have hfront : (inputs.take count).take (index + 1) = inputs.take index ++ [input] := by
    rw [List.take_take, Nat.min_eq_left hcount, List.take_add_one, h, Option.toList_some]
  have hsum : actionsBefore orchard inputs count =
      (((inputs.take index ++ [input]) ++ (inputs.take count).drop (index + 1)).map
        List.length).sum := by
    rw [← hfront, List.take_append_drop, actionsBefore]
  rw [hsum, List.map_append, List.map_append, List.sum_append, List.sum_append, List.map_singleton,
    List.sum_singleton, actionsBefore]
  omega

/-- What the loop collects for each party, with the paths the parties before it left. -/
theorem extractNotes_some {parties : List (Transaction orchard × orchard.Advice)}
    {paths : List orchard.MerklePath} {notes : List orchard.Spend}
    (h : extractNotes orchard parties paths = some notes) (k : Nat) {input : Transaction orchard}
    {advice : orchard.Advice} (hparty : parties[k]? = some (input, advice)) :
    ∃ note path, notes[k]? = some ⟨note, path, advice⟩ ∧
      extractUniqueNote orchard input
        ((paths.drop (actionsBefore orchard (parties.map Prod.fst) k)).take input.length) advice =
        some (note, path) := by
  induction parties generalizing paths notes k with
  | nil => cases hparty
  | cons party parties ih =>
    obtain ⟨first, firstAdvice⟩ := party
    simp only [extractNotes, Option.bind_eq_bind, Option.bind_eq_some_iff, Option.pure_def,
      Option.some.injEq, Prod.exists] at h
    obtain ⟨note, path, hfound, rest, hrest, rfl⟩ := h
    cases k with
    | zero =>
      rw [List.getElem?_cons_zero] at hparty
      cases hparty
      exact ⟨note, path, rfl, hfound⟩
    | succ k =>
      rw [List.getElem?_cons_succ] at hparty
      obtain ⟨note', path', hget, hlater⟩ := ih hrest k hparty
      refine ⟨note', path', hget, ?_⟩
      rw [List.map_cons, actionsBefore_cons, ← List.drop_drop]
      exact hlater

/-- The loop ends when every search succeeds. -/
theorem extractNotes_isSome {parties : List (Transaction orchard × orchard.Advice)}
    {paths : List orchard.MerklePath}
    (h : ∀ (k : Nat) (input : Transaction orchard) (advice : orchard.Advice),
      parties[k]? = some (input, advice) →
      (extractUniqueNote orchard input
        ((paths.drop (actionsBefore orchard (parties.map Prod.fst) k)).take input.length)
        advice).isSome) :
    ∃ notes, extractNotes orchard parties paths = some notes := by
  induction parties generalizing paths with
  | nil => exact ⟨[], rfl⟩
  | cons party parties ih =>
    obtain ⟨input, advice⟩ := party
    obtain ⟨⟨note, path⟩, hfound⟩ := Option.isSome_iff_exists.mp (h 0 input advice rfl)
    have hlater : ∃ notes, extractNotes orchard parties (paths.drop input.length) =
        some notes := by
      apply ih
      intro k input' advice' hparty
      have hparty' := h (k + 1) input' advice' hparty
      rw [List.map_cons, actionsBefore_cons, ← List.drop_drop] at hparty'
      exact hparty'
    obtain ⟨rest, hrest⟩ := hlater
    have hfound' : extractUniqueNote orchard input (paths.take input.length) advice =
        some (note, path) := hfound
    exact ⟨⟨note, path, advice⟩ :: rest, by simp [extractNotes, hfound', hrest]⟩

end Loop

section Parties
variable {orchard} {build : Build} {inputs : ForEachParty build (Transaction orchard)}
  {advices : ForEachParty build orchard.Advice}

theorem map_fst_parties : (inputs.val.zip advices.val).map Prod.fst = inputs.val :=
  List.map_fst_zip (by rw [inputs.property, advices.property])

theorem party_get {k : Nat} {input : Transaction orchard} {advice : orchard.Advice} :
    (inputs.val.zip advices.val)[k]? = some (input, advice) ↔
      inputs.val[k]? = some input ∧ advices.val[k]? = some advice := List.getElem?_zip_eq_some

/-- How many of the actions of a bundle meet a path. -/
theorem covered (input : Transaction orchard) (paths : List orchard.MerklePath) (before : Nat) :
    input.take ((paths.drop before).take input.length).length =
      input.take (paths.length - before) := by
  rw [List.length_take, List.length_drop, List.take_eq_take_iff]
  omega

/-- With a path for every action, surplus ones behind them, each search sees its whole
bundle. -/
theorem spends_of_enough {paths : List orchard.MerklePath} {notes : List orchard.Spend}
    (hpaths : actionsBefore orchard inputs.val (build.numPlayers + 1) ≤ paths.length)
    (hnotes : extractNotes orchard (inputs.val.zip advices.val) paths = some notes) {k : Nat}
    {input : Transaction orchard} {advice : orchard.Advice} (hinput : inputs.val[k]? = some input)
    (hadvice : advices.val[k]? = some advice) :
    ∃ spend, notes[k]? = some spend ∧
      SpendsDeposit orchard input advice (actionsBefore orchard inputs.val k) paths spend := by
  obtain ⟨note, path, hget, hfound⟩ := extractNotes_some hnotes k (party_get.mpr ⟨hinput, hadvice⟩)
  rw [map_fst_parties] at hfound
  have hk : k < build.numPlayers + 1 := by
    rw [← inputs.property]
    exact (List.getElem?_eq_some_iff.mp hinput).1
  have hroom := actionsBefore_add_le hinput hk
  have henough : input.length ≤ ((paths.drop (actionsBefore orchard inputs.val k)).take
      input.length).length := by
    rw [List.length_take, List.length_drop]
    omega
  obtain ⟨position, action, haction, honly, hnote, hpath⟩ :=
    extractUniqueNote_position henough hfound
  have hinside : position < input.length := (List.getElem?_eq_some_iff.mp haction).1
  rw [List.getElem?_take_of_lt hinside, List.getElem?_drop] at hpath
  exact ⟨⟨note, path, advice⟩, hget, position, action, haction, honly, hnote, hpath, rfl,
    fun _ hkey => zcashDepositedAmount_unique henough hfound hkey⟩

theorem not_someExtractionFails {merklePaths : Bytes} {anchor : orchard.MerkleHash}
    {paths : List orchard.MerklePath}
    (hparse : parseMerklePaths orchard merklePaths = some (anchor, paths)) :
    ¬ SomeExtractionFails orchard inputs advices merklePaths ↔
      ∃ notes, extractNotes orchard (inputs.val.zip advices.val) paths = some notes := by
  have hcount := parseMerklePaths_length orchard hparse
  constructor
  · intro hall
    apply extractNotes_isSome
    intro k input advice hparty
    obtain ⟨hinput, hadvice⟩ := party_get.mp hparty
    rw [map_fst_parties, extractUniqueNote_isSome, covered, hcount]
    by_contra hone
    exact hall ⟨k, input, advice, hinput, hadvice, hone⟩
  · rintro ⟨notes, hnotes⟩ ⟨k, input, advice, hinput, hadvice, hone⟩
    obtain ⟨note, path, -, hfound⟩ :=
      extractNotes_some hnotes k (party_get.mpr ⟨hinput, hadvice⟩)
    have hsome := extractUniqueNote_isSome.mp (Option.isSome_iff_exists.mpr ⟨_, hfound⟩)
    rw [map_fst_parties, covered, hcount] at hsome
    exact hone hsome

/-- The spends are the deposits, and the number of paths that of the actions, when the
host supplied so many paths, or no spends are extracted. -/
theorem spends_what_was_credited_iff (inputs : ForEachParty build (Transaction orchard))
    (advices : ForEachParty build orchard.Advice) (merklePaths : Bytes) :
    SpendsWhatWasCredited orchard inputs advices merklePaths ↔
      parseMerklePaths orchard merklePaths = none ∨
      pathCount orchard merklePaths =
        actionsBefore orchard inputs.val (build.numPlayers + 1) ∨
      SomeExtractionFails orchard inputs advices merklePaths := by
  constructor
  · intro hspends
    cases hparse : parseMerklePaths orchard merklePaths with
    | none => exact Or.inl rfl
    | some parsed =>
      obtain ⟨anchor, paths⟩ := parsed
      right
      rw [or_iff_not_imp_right]
      intro hextracted
      obtain ⟨notes, hnotes⟩ := (not_someExtractionFails hparse).mp hextracted
      rw [← parseMerklePaths_length orchard hparse]
      exact (hspends anchor paths notes hparse hnotes).2
  · intro hcondition anchor paths notes hparse hnotes
    have hpaths : paths.length = actionsBefore orchard inputs.val (build.numPlayers + 1) := by
      rcases hcondition with hnone | hcount | hfails
      · rw [hparse] at hnone
        cases hnone
      · rw [parseMerklePaths_length orchard hparse, hcount]
      · exact absurd hfails ((not_someExtractionFails hparse).mpr ⟨notes, hnotes⟩)
    exact ⟨fun k input advice hinput hadvice => spends_of_enough hpaths.ge hnotes hinput hadvice,
      hpaths⟩

end Parties

section Short

/-- One key, actions that hold a value or nothing, and paths of the real depth. -/
abbrev openLedger : Orchard where
  SpendingKey := Unit
  FullViewingKey := Unit
  IncomingViewingKey := Unit
  Scalar := Unit
  Address := Unit
  Action := Option UInt64
  Note := UInt64
  MerkleHash := Unit
  PartialTransaction := Unit
  noteCommitmentTreeDepth := 32
  fullViewingKey := id
  toIvk := id
  tryNoteDecryption := fun _ action => action
  value := id
  merkleHashFromBytes := fun _ => some ()
  assemble := fun _ _ _ _ => some ()

def onePlayer : Build := { Build.defaults (FixedBytes.zero 32) with numPlayers := 1 }

/-- The player deposits twice in one bundle. -/
def twoDeposits : ForEachParty onePlayer (Transaction openLedger) :=
  ⟨[[some 5], [some 7, some 9]], rfl⟩

def oneAdvice : ForEachParty onePlayer openLedger.Advice := ⟨[⟨(), ()⟩, ⟨(), ()⟩], rfl⟩

/-- Two paths for three actions. -/
def twoPaths : Bytes := List.replicate (32 + 2 * 1028) 0

theorem second_deposit_not_seen :
    ¬ SpendsWhatWasCredited openLedger twoDeposits oneAdvice twoPaths := by
  intro hspends
  have hparse : parseMerklePaths openLedger twoPaths =
      some ((), List.replicate 2 ⟨0, List.replicate 32 ()⟩) := by decide +kernel
  have hnotes : extractNotes openLedger (twoDeposits.val.zip oneAdvice.val)
      (List.replicate 2 ⟨0, List.replicate 32 ()⟩) =
        some [⟨5, ⟨0, List.replicate 32 ()⟩, ⟨(), ()⟩⟩,
          ⟨7, ⟨0, List.replicate 32 ()⟩, ⟨(), ()⟩⟩] := by decide +kernel
  obtain ⟨spend, -, position, action, -, honly, -⟩ :=
    (hspends _ _ _ hparse hnotes).1 1 [some 7, some 9] ⟨(), ()⟩ rfl rfl
  have hfirst := (honly 0 (some 7) rfl).mp rfl
  have hsecond := (honly 1 (some 9) rfl).mp rfl
  omega

end Short

end Auntie.Guarantees.SpentNotes
