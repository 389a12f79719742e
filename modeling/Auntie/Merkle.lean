import Mathlib.Data.List.Basic
import Mathlib.Data.Nat.Log
import Mathlib.Logic.Function.Iterate

/-!
# Merkle trees that pair an odd last node with itself

A layer of a tree is the list of its nodes; the next one up hashes them pairwise. As an odd
last node is hashed with a copy of itself, lists of different lengths share a root. Two lists
under one root, the same number of layers up, hold the same nodes, and are equal when they are
of one length, unless two different pairs hashed on the way have one hash.
-/

namespace Auntie.Merkle

section Pairs
variable {δ : Type*}

/-- The nodes two by two, an odd last one twice. -/
def pairs : List δ → List (δ × δ)
  | left :: right :: rest => (left, right) :: pairs rest
  | [left] => [(left, left)]
  | [] => []

theorem pairs_length (nodes : List δ) : (pairs nodes).length = (nodes.length + 1) / 2 := by
  induction nodes using pairs.induct with
  | case1 left right rest ih =>
    simp only [pairs, List.length_cons, ih]
    omega
  | case2 left => simp [pairs]
  | case3 => simp [pairs]

theorem mem_iff_mem_pairs {node : δ} {nodes : List δ} :
    node ∈ nodes ↔ ∃ hashed ∈ pairs nodes, node = hashed.1 ∨ node = hashed.2 := by
  induction nodes using pairs.induct with
  | case1 left right rest ih => simp [pairs, ih, or_assoc]
  | case2 left => simp [pairs]
  | case3 => simp [pairs]

theorem pairs_injective {first second : List δ} (hlength : first.length = second.length)
    (h : pairs first = pairs second) : first = second := by
  induction first using pairs.induct generalizing second with
  | case1 left right rest ih =>
    match second, hlength with
    | left' :: right' :: rest', hlength =>
      simp only [pairs, List.cons.injEq, Prod.mk.injEq] at h
      obtain ⟨⟨rfl, rfl⟩, hrest⟩ := h
      have hlength : rest.length = rest'.length := by simpa using hlength
      rw [ih hlength hrest]
  | case2 left =>
    match second, hlength with
    | [left'], _ =>
      simp only [pairs, List.cons.injEq, Prod.mk.injEq] at h
      rw [h.1.1]
  | case3 => exact (List.length_eq_zero_iff.mp hlength.symm).symm

end Pairs

section Layers
variable {δ : Type*} (hash : δ × δ → δ)

/-- The layer above. -/
def layer (nodes : List δ) : List δ := (pairs nodes).map hash

theorem layer_length (nodes : List δ) : (layer hash nodes).length = (nodes.length + 1) / 2 := by
  rw [layer, List.length_map, pairs_length]

/-- The pairs hashed in so many rounds. -/
def hashed : Nat → List δ → List (δ × δ)
  | 0, _ => []
  | rounds + 1, nodes => pairs nodes ++ hashed rounds (layer hash nodes)

/-- Two different pairs with one hash, the first from one list and the second from another. -/
def Collide (first second : List (δ × δ)) : Prop :=
  ∃ one ∈ first, ∃ other ∈ second, one ≠ other ∧ hash one = hash other

theorem Collide.mono {hash : δ × δ → δ} {first first' second second' : List (δ × δ)}
    (hfirst : first ⊆ first') (hsecond : second ⊆ second') (h : Collide hash first second) :
    Collide hash first' second' := by
  obtain ⟨one, hone, other, hother, hdiffer⟩ := h
  exact ⟨one, hfirst hone, other, hsecond hother, hdiffer⟩

theorem Collide.symm {hash : δ × δ → δ} {first second : List (δ × δ)}
    (h : Collide hash first second) : Collide hash second first := by
  obtain ⟨one, hone, other, hother, hne, hsame⟩ := h
  exact ⟨other, hother, one, hone, hne.symm, hsame.symm⟩

variable {hash} {first second : List δ} {rounds : Nat}

/-- A node of the layer above names its pair. -/
theorem mem_pairs_of_layer {one : δ × δ} (hone : one ∈ pairs first)
    (hlayer : ∀ node ∈ layer hash first, node ∈ layer hash second) :
    one ∈ pairs second ∨ Collide hash (pairs first) (pairs second) := by
  obtain ⟨other, hother, hsame⟩ := List.mem_map.mp (hlayer _ (List.mem_map_of_mem hone))
  by_cases h : one = other
  · rw [h]
    exact .inl hother
  · exact .inr ⟨one, hone, other, hother, h, hsame.symm⟩

theorem subset_of_layer (h : ¬ Collide hash (pairs first) (pairs second))
    (hlayer : ∀ node ∈ layer hash first, node ∈ layer hash second) :
    ∀ node ∈ first, node ∈ second := by
  intro node hnode
  obtain ⟨one, hone, hpart⟩ := mem_iff_mem_pairs.mp hnode
  have hother := (mem_pairs_of_layer hone hlayer).resolve_right h
  exact mem_iff_mem_pairs.mpr ⟨one, hother, hpart⟩

/-- Nodes that a layer above shares are shared below. -/
theorem subset_of_layers (h : ¬ Collide hash (hashed hash rounds first) (hashed hash rounds second))
    (hlayer : ∀ node ∈ (layer hash)^[rounds] first, node ∈ (layer hash)^[rounds] second) :
    ∀ node ∈ first, node ∈ second := by
  induction rounds generalizing first second with
  | zero => exact hlayer
  | succ rounds ih =>
    have hrest : ∀ node ∈ layer hash first, node ∈ layer hash second :=
      ih (fun hcollide => h (hcollide.mono (List.subset_append_right _ _)
        (List.subset_append_right _ _))) hlayer
    exact subset_of_layer (fun hcollide => h (hcollide.mono (List.subset_append_left _ _)
      (List.subset_append_left _ _))) hrest

/-- Two lists under one root hold the same nodes. -/
theorem mem_iff_of_root {root : δ}
    (h : ¬ Collide hash (hashed hash rounds first) (hashed hash rounds second))
    (hfirst : (layer hash)^[rounds] first = [root]) (hsecond : (layer hash)^[rounds] second = [root])
    (node : δ) : node ∈ first ↔ node ∈ second := by
  constructor
  · refine subset_of_layers h ?_ node
    rw [hfirst, hsecond]
    exact fun _ hroot => hroot
  · refine subset_of_layers (fun hcollide => h hcollide.symm) ?_ node
    rw [hfirst, hsecond]
    exact fun _ hroot => hroot

theorem eq_of_layer (h : ¬ Collide hash (pairs first) (pairs second))
    (hlength : first.length = second.length) (hlayer : layer hash first = layer hash second) :
    first = second := by
  refine pairs_injective hlength (List.ext_getElem ?_ fun index hone hother => ?_)
  · rw [pairs_length, pairs_length, hlength]
  · have hsame : hash (pairs first)[index] = hash (pairs second)[index] := by
      have hindex := congrArg (·[index]?) hlayer
      simpa [layer, hone, hother] using hindex
    by_contra hne
    exact h ⟨_, List.getElem_mem hone, _, List.getElem_mem hother, hne, hsame⟩

theorem eq_of_layers (h : ¬ Collide hash (hashed hash rounds first) (hashed hash rounds second))
    (hlength : first.length = second.length)
    (hlayer : (layer hash)^[rounds] first = (layer hash)^[rounds] second) : first = second := by
  induction rounds generalizing first second with
  | zero => exact hlayer
  | succ rounds ih =>
    have hlengths : (layer hash first).length = (layer hash second).length := by
      rw [layer_length, layer_length, hlength]
    have hrest : layer hash first = layer hash second :=
      ih (fun hcollide => h (hcollide.mono (List.subset_append_right _ _)
        (List.subset_append_right _ _))) hlengths hlayer
    exact eq_of_layer (fun hcollide => h (hcollide.mono (List.subset_append_left _ _)
      (List.subset_append_left _ _))) hlength hrest

end Layers

section Rounds
variable {δ : Type*} (hash : δ × δ → δ)

/-- The rounds that lead from so many nodes to the root. -/
def height (count : Nat) : Nat := Nat.clog 2 count

theorem height_of_le {count : Nat} (h : count ≤ 1) : height count = 0 :=
  Nat.clog_of_right_le_one h 2

theorem height_of_lt {count : Nat} (h : 1 < count) : height count = height ((count + 1) / 2) + 1 :=
  Nat.clog_of_two_le (by decide) h

/-- So many rounds end at the root. -/
theorem layers_height {nodes : List δ} (h : nodes ≠ []) :
    ∃ root, (layer hash)^[height nodes.length] nodes = [root] := by
  generalize hcount : nodes.length = count
  induction count using Nat.strong_induction_on generalizing nodes with
  | _ count ih =>
    have hpos : 0 < nodes.length := List.length_pos_of_ne_nil h
    by_cases hmany : 1 < count
    · rw [height_of_lt hmany]
      refine ih ((count + 1) / 2) (by omega) ?_ (by rw [layer_length, hcount])
      exact List.ne_nil_of_length_pos (by rw [layer_length]; omega)
    · rw [height_of_le (by omega)]
      have hone : nodes.length = 1 := by omega
      exact List.length_eq_one_iff.mp hone

end Rounds

end Auntie.Merkle
