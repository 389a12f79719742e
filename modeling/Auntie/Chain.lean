import Mathlib.Data.List.Chain

/-!
# Linked chains

Items read one after another, each accepted or refused relative to a digest the
previous one left: the longest accepted prefix, the prefix cut just after the
first item with a defect, and the number of items after the first one hit. The
acceptance function, the defect and the hit are parameters.
-/

namespace Auntie.Chain

section Accepted
variable {α δ : Type} (accept : α → δ → Option δ)

/-- The items accepted one after another from a digest, up to the first refusal. -/
def acceptedPrefix : δ → List α → List α
  | _, [] => []
  | digest, item :: rest =>
    match accept item digest with
    | some next => item :: acceptedPrefix next rest
    | none => []

/-- Every item of the list is accepted in turn. -/
def Linked : δ → List α → Prop
  | _, [] => True
  | digest, item :: rest => ∃ next, accept item digest = some next ∧ Linked next rest

theorem acceptedPrefix_linked (digest : δ) (items : List α) :
    Linked accept digest (acceptedPrefix accept digest items) := by
  induction items generalizing digest with
  | nil => trivial
  | cons item rest ih =>
    cases h : accept item digest with
    | none => simp only [acceptedPrefix, h, Linked]
    | some next =>
      simp only [acceptedPrefix, h]
      exact ⟨next, h, ih next⟩

theorem acceptedPrefix_prefixOf (digest : δ) (items : List α) :
    acceptedPrefix accept digest items <+: items := by
  induction items generalizing digest with
  | nil => exact List.prefix_rfl
  | cons item rest ih =>
    cases h : accept item digest with
    | none => simp only [acceptedPrefix, h, List.nil_prefix]
    | some next =>
      simp only [acceptedPrefix, h]
      exact (List.prefix_cons_inj item).mpr (ih next)

/-- The accepted prefix is the longest: it begins with every linked prefix. -/
theorem Linked.prefix_acceptedPrefix {digest : δ} {items linked : List α}
    (hlinked : Linked accept digest linked) (hpre : linked <+: items) :
    linked <+: acceptedPrefix accept digest items := by
  induction linked generalizing digest items with
  | nil => exact List.nil_prefix
  | cons item rest ih =>
    obtain ⟨next, haccept, hrest⟩ := hlinked
    obtain ⟨tail, rfl⟩ := hpre
    simp only [List.cons_append, acceptedPrefix, haccept]
    exact (List.prefix_cons_inj item).mpr (ih hrest (List.prefix_append rest tail))

theorem Linked.of_prefixOf {digest : δ} {items linked : List α}
    (h : Linked accept digest items) (hpre : linked <+: items) :
    Linked accept digest linked := by
  induction linked generalizing digest items with
  | nil => trivial
  | cons item rest ih =>
    obtain ⟨tail, rfl⟩ := hpre
    obtain ⟨next, haccept, hrest⟩ := h
    exact ⟨next, haccept, ih hrest (List.prefix_append rest tail)⟩

theorem Linked.accepted {digest : δ} {items : List α} (h : Linked accept digest items) :
    ∀ item ∈ items, ∃ previous, (accept item previous).isSome := by
  induction items generalizing digest with
  | nil =>
    intro item hitem
    cases hitem
  | cons first rest ih =>
    obtain ⟨next, haccept, hrest⟩ := h
    intro item hitem
    rcases List.mem_cons.mp hitem with rfl | htail
    · exact ⟨digest, by rw [haccept]; rfl⟩
    · exact ih hrest item htail

theorem acceptedPrefix_of_linked {digest : δ} {items : List α}
    (h : Linked accept digest items) : acceptedPrefix accept digest items = items :=
  (acceptedPrefix_prefixOf accept digest items).eq_of_length_le
    (h.prefix_acceptedPrefix accept List.prefix_rfl).length_le

end Accepted

section Links
variable {α δ : Type} (hash prev : α → δ)

/-- The first item refers to the origin and each other one to the hash of the item before. -/
def Links (origin : δ) (items : List α) : Prop :=
  (∀ first ∈ items.head?, prev first = origin) ∧
    items.IsChain fun earlier later => prev later = hash earlier

variable {hash} {prev} {origin : δ} {item : α} {items : List α}

theorem links_cons :
    Links hash prev origin (item :: items) ↔ prev item = origin ∧ Links hash prev (hash item) items := by
  cases items with
  | nil => simp [Links]
  | cons next rest => simp [Links]

/-- Acceptance that checks the item by itself and its reference. -/
theorem linked_iff {accept : α → δ → Option δ} {valid : α → Prop}
    (haccept : ∀ item digest next, accept item digest = some next ↔
      valid item ∧ prev item = digest ∧ hash item = next) :
    Linked accept origin items ↔ (∀ item ∈ items, valid item) ∧ Links hash prev origin items := by
  induction items generalizing origin with
  | nil => simp [Linked, Links]
  | cons item rest ih =>
    simp only [Linked, haccept, ih, links_cons, List.forall_mem_cons]
    constructor
    · rintro ⟨next, ⟨hvalid, hprev, rfl⟩, hrest, hlinks⟩
      exact ⟨⟨hvalid, hrest⟩, hprev, hlinks⟩
    · rintro ⟨⟨hvalid, hrest⟩, hprev, hlinks⟩
      exact ⟨hash item, ⟨hvalid, hprev, rfl⟩, hrest, hlinks⟩

/-- The last item determines the ones before it, unless two items have one hash. -/
theorem eq_of_last {first second : List α} (hlength : first.length = second.length)
    (hfirst : first.IsChain fun earlier later => prev later = hash earlier)
    (hsecond : second.IsChain fun earlier later => prev later = hash earlier)
    (hlast : first.getLast? = second.getLast?) :
    first = second ∨ ∃ one ∈ first, ∃ other ∈ second, one ≠ other ∧ hash one = hash other := by
  induction first using List.reverseRecOn generalizing second with
  | nil => exact .inl (List.length_eq_zero_iff.mp hlength.symm).symm
  | append_singleton first item ih =>
    rcases List.eq_nil_or_concat' second with rfl | ⟨second, item', rfl⟩
    · simp at hlength
    · have hsame : item = item' := by simpa using hlast
      subst hsame
      have hlengths : first.length = second.length := by simpa using hlength
      rcases List.eq_nil_or_concat' first with rfl | ⟨earlier, one, rfl⟩
      · rw [List.length_eq_zero_iff.mp hlengths.symm]
        exact .inl rfl
      · rcases List.eq_nil_or_concat' second with rfl | ⟨earlier', other, rfl⟩
        · simp at hlengths
        · have hone : prev item = hash one := by
            simpa using (List.isChain_append.mp hfirst).2.2
          have hother : prev item = hash other := by
            simpa using (List.isChain_append.mp hsecond).2.2
          by_cases heq : one = other
          · have hrest := ih hlengths (List.isChain_append.mp hfirst).1
              (List.isChain_append.mp hsecond).1 (by simp [heq])
            rcases hrest with hrest | ⟨a, ha, b, hb, hab⟩
            · rw [hrest]
              exact .inl rfl
            · exact .inr ⟨a, List.mem_append_left _ ha, b, List.mem_append_left _ hb, hab⟩
          · exact .inr ⟨one, by simp, other, by simp, heq, hone.symm.trans hother⟩

end Links

section Map
variable {α β δ : Type} (accept : β → δ → Option δ) (key : α → β)

/-- Acceptance of a key of each item is acceptance of the mapped list. -/
theorem linked_map (digest : δ) (items : List α) :
    Linked accept digest (items.map key) ↔
      Linked (fun item => accept (key item)) digest items := by
  induction items generalizing digest with
  | nil => exact Iff.rfl
  | cons item rest ih => simp only [List.map_cons, Linked, ih]

end Map

section Cut
variable {α : Type} (defect : α → Bool)

/-- The prefix up to and including the first item with the defect. -/
def cutAfter : List α → List α
  | [] => []
  | item :: rest => item :: if defect item then [] else cutAfter rest

theorem cutAfter_prefixOf (items : List α) : cutAfter defect items <+: items := by
  induction items with
  | nil => exact List.prefix_rfl
  | cons item rest ih =>
    rw [cutAfter]
    split
    · exact (List.prefix_cons_inj item).mpr List.nil_prefix
    · exact (List.prefix_cons_inj item).mpr ih

/-- Only the last item of a cut prefix can have the defect. -/
theorem cutAfter_defect {items before after : List α} {item : α}
    (h : cutAfter defect items = before ++ item :: after) (hafter : after ≠ []) :
    defect item = false := by
  induction items generalizing before with
  | nil => cases before <;> cases h
  | cons first rest ih =>
    rw [cutAfter] at h
    cases before with
    | nil =>
      simp only [List.nil_append, List.cons.injEq] at h
      obtain ⟨rfl, htail⟩ := h
      split at htail
      · exact absurd htail.symm hafter
      · rename_i hgood
        simpa using hgood
    | cons head before =>
      simp only [List.cons_append, List.cons.injEq] at h
      split at h
      · cases before <;> cases h.2
      · exact ih h.2

theorem cutAfter_of_clean {items : List α} (h : ∀ item ∈ items, defect item = false) :
    cutAfter defect items = items := by
  induction items with
  | nil => rfl
  | cons item rest ih =>
    rw [cutAfter, h item (by simp), ih (fun other hother => h other (by simp [hother]))]
    rfl

end Cut

section Depth
variable {α : Type} (hit : α → Bool)

/-- The number of items after the first one hit, `0` when there is none. -/
def depthAfterFirst (items : List α) : Nat :=
  match items.findIdx? hit with
  | some index => items.length - (index + 1)
  | none => 0

@[simp] theorem depthAfterFirst_nil : depthAfterFirst hit [] = 0 := rfl

theorem depthAfterFirst_cons (item : α) (rest : List α) :
    depthAfterFirst hit (item :: rest) =
      if hit item then rest.length else depthAfterFirst hit rest := by
  unfold depthAfterFirst
  rw [List.findIdx?_cons]
  by_cases hitem : hit item
  · simp [hitem]
  · cases h : rest.findIdx? hit with
    | none => simp [hitem]
    | some index => simp [hitem]

theorem depthAfterFirst_le (items : List α) : depthAfterFirst hit items ≤ items.length := by
  induction items with
  | nil => exact Nat.le_refl 0
  | cons item rest ih =>
    rw [depthAfterFirst_cons, List.length_cons]
    split <;> omega

theorem depthAfterFirst_append {before after : List α} {item : α}
    (hbefore : ∀ other ∈ before, hit other = false) (hitem : hit item = true) :
    depthAfterFirst hit (before ++ item :: after) = after.length := by
  induction before with
  | nil => rw [List.nil_append, depthAfterFirst_cons, if_pos hitem]
  | cons first rest ih =>
    rw [List.cons_append, depthAfterFirst_cons, if_neg (by simp [hbefore first (by simp)])]
    exact ih (fun other hother => hbefore other (by simp [hother]))

/-- A positive depth is reached from an item that is hit. -/
theorem depthAfterFirst_pos {items : List α} (h : 0 < depthAfterFirst hit items) :
    ∃ before item after, items = before ++ item :: after ∧ hit item = true ∧
      after.length = depthAfterFirst hit items := by
  induction items with
  | nil => simp at h
  | cons first rest ih =>
    rw [depthAfterFirst_cons] at h ⊢
    split at h
    · rename_i hfirst
      exact ⟨[], first, rest, rfl, hfirst, by rw [if_pos hfirst]⟩
    · rename_i hfirst
      obtain ⟨before, item, after, hsplit, hitem, hlen⟩ := ih h
      refine ⟨first :: before, item, after, by rw [hsplit, List.cons_append], hitem, ?_⟩
      rw [if_neg hfirst, hlen]

end Depth

end Auntie.Chain
