import Mathlib.Data.Multiset.Bind

/-!
# Ledgers of live objects

A ledger holds the objects that have been acquired and not released yet, each as often as it
has been acquired, and the releases of what was not live. Everything has been released exactly
once when both are empty.
-/

namespace Auntie

structure Ledger (α : Type*) where
  live : Multiset α := 0
  /-- Released while not live. -/
  excess : Multiset α := 0
  deriving DecidableEq

namespace Ledger
variable {α : Type*}

def acquire (ledger : Ledger α) (objects : List α) : Ledger α :=
  { ledger with live := objects + ledger.live }

@[simp] theorem acquire_nil (ledger : Ledger α) : ledger.acquire [] = ledger := by
  simp [acquire]

@[simp] theorem acquire_singleton (ledger : Ledger α) (object : α) :
    ledger.acquire [object] = ⟨object ::ₘ ledger.live, ledger.excess⟩ := by
  simp [acquire]

variable [DecidableEq α]

def releaseOne (ledger : Ledger α) (object : α) : Ledger α :=
  if object ∈ ledger.live then { ledger with live := ledger.live.erase object }
  else { ledger with excess := object ::ₘ ledger.excess }

def release (ledger : Ledger α) (objects : List α) : Ledger α := objects.foldl releaseOne ledger

variable {ledger : Ledger α} {object : α} {objects : List α} {rest excess : Multiset α}

@[simp] theorem release_nil : ledger.release [] = ledger := rfl

theorem release_append (first second : List α) :
    ledger.release (first ++ second) = (ledger.release first).release second :=
  List.foldl_append

@[simp] theorem release_cons_self :
    (⟨object ::ₘ rest, excess⟩ : Ledger α).release [object] = ⟨rest, excess⟩ := by
  simp [release, releaseOne]

/-- What is live is released without excess. -/
theorem release_live (objects : List α) (rest excess : Multiset α) :
    (⟨objects + rest, excess⟩ : Ledger α).release objects = ⟨rest, excess⟩ := by
  induction objects with
  | nil => simp
  | cons object objects ih =>
    have hone : (⟨↑(object :: objects) + rest, excess⟩ : Ledger α).releaseOne object =
        ⟨objects + rest, excess⟩ := by
      rw [← Multiset.cons_coe, Multiset.cons_add, releaseOne, if_pos (Multiset.mem_cons_self _ _),
        Multiset.erase_cons_head]
    rw [release, List.foldl_cons, hone]
    exact ih

/-- A release lowers the live objects or raises the excess. -/
theorem release_card (ledger : Ledger α) (objects : List α) :
    (ledger.release objects).live.card + objects.length + ledger.excess.card =
      ledger.live.card + (ledger.release objects).excess.card := by
  induction objects generalizing ledger with
  | nil => rfl
  | cons object objects ih =>
    have hrest := ih (ledger.releaseOne object)
    have hone : (ledger.releaseOne object).live.card + 1 + ledger.excess.card =
        ledger.live.card + (ledger.releaseOne object).excess.card := by
      unfold releaseOne
      split
      · rename_i hlive
        rw [Multiset.card_erase_add_one hlive]
      · simp only [Multiset.card_cons]
        omega
    have hfold : ledger.release (object :: objects) = (ledger.releaseOne object).release objects := rfl
    rw [hfold, List.length_cons]
    omega

/-- More releases than live objects leave an excess. -/
theorem release_excess (h : ledger.live.card < objects.length) :
    ledger.release objects ≠ ⟨0, 0⟩ := by
  intro hempty
  have hcard := ledger.release_card objects
  rw [hempty] at hcard
  simp only [Multiset.card_zero] at hcard
  omega

end Ledger

end Auntie
