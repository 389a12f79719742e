import Auntie.Interaction.Contract

/-!
# A hub and its peers

One component and any number of others, all of one kind, move independently. A history is one
order of everything that happens in the system; what it says of one party is a trace of that
party. Nothing else is assumed, so that every interleaving has its history.
-/

namespace Auntie.Interaction

section Projection
variable {A B ι : Type*}

inductive Happening (A B ι : Type*) where
  | hub (event : A)
  | peer (i : ι) (event : B)

namespace Happening

def hub? : Happening A B ι → Option A
  | .hub event => some event
  | .peer _ _ => none

def peer? [DecidableEq ι] (i : ι) : Happening A B ι → Option B
  | .hub _ => none
  | .peer j event => if i = j then some event else none

theorem hub?_eq_some {happening : Happening A B ι} {event : A} :
    happening.hub? = some event ↔ happening = .hub event := by
  cases happening with
  | hub other => simp [hub?]
  | peer i other => simp [hub?]

theorem peer?_eq_some [DecidableEq ι] {happening : Happening A B ι} {i : ι} {event : B} :
    happening.peer? i = some event ↔ happening = .peer i event := by
  cases happening with
  | hub other => simp [peer?]
  | peer j other =>
    by_cases h : i = j
    · simp [peer?, h]
    · simp [peer?, h, Ne.symm h]

end Happening

/-- What the hub has done. -/
def hubEvents (history : List (Happening A B ι)) : List A := history.filterMap Happening.hub?

/-- What one of the peers has done. -/
def peerEvents [DecidableEq ι] (i : ι) (history : List (Happening A B ι)) : List B :=
  history.filterMap (Happening.peer? i)

theorem hubEvents_append (first second : List (Happening A B ι)) :
    hubEvents (first ++ second) = hubEvents first ++ hubEvents second := List.filterMap_append

theorem peerEvents_append [DecidableEq ι] (i : ι) (first second : List (Happening A B ι)) :
    peerEvents i (first ++ second) = peerEvents i first ++ peerEvents i second :=
  List.filterMap_append

@[simp] theorem hubEvents_hub (events : List A) :
    hubEvents (events.map (.hub : A → Happening A B ι)) = events := by
  simp [hubEvents, List.filterMap_map, Function.comp_def, Happening.hub?]

@[simp] theorem hubEvents_peer (i : ι) (events : List B) :
    hubEvents (events.map (.peer i : B → Happening A B ι)) = [] := by
  simp [hubEvents, Happening.hub?]

@[simp] theorem peerEvents_hub [DecidableEq ι] (i : ι) (events : List A) :
    peerEvents i (events.map (.hub : A → Happening A B ι)) = [] := by
  simp [peerEvents, Happening.peer?]

@[simp] theorem peerEvents_peer [DecidableEq ι] (i j : ι) (events : List B) :
    peerEvents i (events.map (.peer j : B → Happening A B ι)) = if i = j then events else [] := by
  by_cases h : i = j
  · simp [peerEvents, List.filterMap_map, Function.comp_def, Happening.peer?, h]
  · simp [peerEvents, Happening.peer?, h]

/-- Peers that move one after the other. -/
def inTurn (peers : List ι) (events : ι → List B) : List (Happening A B ι) :=
  peers.flatMap fun i => (events i).map (.peer i)

theorem inTurn_cons (i : ι) (peers : List ι) (events : ι → List B) :
    (inTurn (i :: peers) events : List (Happening A B ι)) =
      (events i).map (.peer i) ++ inTurn peers events := rfl

@[simp] theorem hubEvents_inTurn (peers : List ι) (events : ι → List B) :
    hubEvents (inTurn peers events : List (Happening A B ι)) = [] := by
  induction peers with
  | nil => rfl
  | cons i peers ih => rw [inTurn_cons, hubEvents_append, hubEvents_peer, ih, List.append_nil]

theorem peerEvents_inTurn_none [DecidableEq ι] {i : ι} {peers : List ι} (h : i ∉ peers)
    (events : ι → List B) : peerEvents i (inTurn peers events : List (Happening A B ι)) = [] := by
  induction peers with
  | nil => rfl
  | cons j peers ih =>
    have hne : i ≠ j := fun hsame => h (hsame ▸ List.mem_cons_self)
    rw [inTurn_cons, peerEvents_append, peerEvents_peer, if_neg hne,
      ih fun hi => h (List.mem_cons_of_mem _ hi), List.append_nil]

theorem peerEvents_inTurn [DecidableEq ι] {i : ι} {peers : List ι} (hnodup : peers.Nodup)
    (h : i ∈ peers) (events : ι → List B) :
    peerEvents i (inTurn peers events : List (Happening A B ι)) = events i := by
  induction peers with
  | nil => cases h
  | cons j peers ih =>
    obtain ⟨hfirst, hrest⟩ := List.nodup_cons.mp hnodup
    rw [inTurn_cons, peerEvents_append, peerEvents_peer]
    rcases List.mem_cons.mp h with rfl | h
    · rw [if_pos rfl, peerEvents_inTurn_none hfirst, List.append_nil]
    · have hne : i ≠ j := fun hsame => hfirst (hsame ▸ h)
      rw [if_neg hne, ih hrest h, List.nil_append]

theorem mem_hubEvents {history : List (Happening A B ι)} {event : A} :
    event ∈ hubEvents history ↔ .hub event ∈ history := by
  rw [hubEvents, List.mem_filterMap]
  constructor
  · rintro ⟨happening, hmem, hevent⟩
    rwa [← Happening.hub?_eq_some.mp hevent]
  · exact fun h => ⟨_, h, rfl⟩

theorem mem_peerEvents [DecidableEq ι] {history : List (Happening A B ι)} {i : ι} {event : B} :
    event ∈ peerEvents i history ↔ .peer i event ∈ history := by
  rw [peerEvents, List.mem_filterMap]
  constructor
  · rintro ⟨happening, hmem, hevent⟩
    rwa [← Happening.peer?_eq_some.mp hevent]
  · exact fun h => ⟨_, h, Happening.peer?_eq_some.mpr rfl⟩

/-- The past of an event of the hub. -/
theorem hubEvents_split {history : List (Happening A B ι)} {before after : List A} {event : A}
    (h : hubEvents history = before ++ event :: after) :
    ∃ past future, history = past ++ .hub event :: future ∧ hubEvents past = before := by
  obtain ⟨past, rest, rfl, hpast, hrest⟩ := List.filterMap_eq_append_iff.mp h
  obtain ⟨others, happening, future, rfl, hothers, hhub, -⟩ := List.filterMap_eq_cons_iff.mp hrest
  obtain rfl := Happening.hub?_eq_some.mp hhub
  refine ⟨past ++ others, future, by rw [List.append_assoc], ?_⟩
  have hnone : hubEvents others = [] := List.filterMap_eq_nil_iff.mpr hothers
  rw [hubEvents_append, hnone, List.append_nil]
  exact hpast

end Projection

section Position
variable {I : Interface} {σ : Type} {comp : Component I σ} {steps : List (Step comp)}

/-- An event of some operations is an event of one of them: the events before it are those of the
operations before, and those that come before it in its own. -/
theorem eventsOf_split {before after : List (Event I)} {event : Event I}
    (h : eventsOf steps = before ++ event :: after) :
    ∃ earlier step later mid rest, steps = earlier ++ step :: later ∧
      step.events = mid ++ event :: rest ∧ before = eventsOf earlier ++ mid := by
  induction steps generalizing before with
  | nil => simp [eventsOf] at h
  | cons first steps ih =>
    rw [eventsOf, List.flatMap_cons] at h
    rcases List.append_eq_append_iff.mp h with ⟨rest, rfl, hrest⟩ | ⟨rest, hfirst, hrest⟩
    · obtain ⟨earlier, step, later, mid, tail, rfl, hevents, rfl⟩ := ih hrest
      exact ⟨first :: earlier, step, later, mid, tail, rfl, hevents, by simp [eventsOf]⟩
    · cases rest with
      | nil =>
        have hsplit : eventsOf steps = [] ++ event :: after := hrest.symm
        obtain ⟨earlier, step, later, mid, tail, rfl, hevents, hmid⟩ := ih hsplit
        refine ⟨first :: earlier, step, later, mid, tail, rfl, hevents, ?_⟩
        rw [eventsOf, List.flatMap_cons, hfirst, List.append_nil, List.append_assoc]
        exact (List.append_nil before).symm.trans (congrArg _ hmid)
      | cons other tail =>
        obtain ⟨rfl, rfl⟩ := List.cons.inj hrest
        exact ⟨[], first, steps, before, tail, rfl, hfirst, rfl⟩

end Position

section System
variable {I J : Interface} {σ τ : Type} (hub : Component I σ) (hubInit : σ)
  (peer : Component J τ) (peerInit : τ) (ι : Type) [DecidableEq ι]

/-- One order of everything that happens in a run of the system. -/
structure Interleaving where
  history : List (Happening (Event I) (Event J) ι)
  hubSteps : List (Step hub)
  hubState : σ
  hubTrace : Trace hub hubInit hubSteps hubState
  peerSteps : ι → List (Step peer)
  peerState : ι → τ
  peerTrace (i : ι) : Trace peer peerInit (peerSteps i) (peerState i)
  hub_history : hubEvents history = eventsOf hubSteps
  peer_history (i : ι) : peerEvents i history = eventsOf (peerSteps i)

namespace Interleaving
variable {hub hubInit peer peerInit ι} (run : Interleaving hub hubInit peer peerInit ι)
  {past future : List (Happening (Event I) (Event J) ι)}

/-- The operation of the hub in which something happens, and what the hub has done before. -/
theorem hub_at {event : Event I} (h : run.history = past ++ .hub event :: future) :
    ∃ earlier step later mid rest, run.hubSteps = earlier ++ step :: later ∧
      step.events = mid ++ event :: rest ∧ hubEvents past = eventsOf earlier ++ mid := by
  have hevents : eventsOf run.hubSteps = hubEvents past ++ event :: hubEvents future := by
    rw [← run.hub_history, h, hubEvents_append]
    rfl
  exact eventsOf_split hevents

/-- The operation of a peer in which something happens, and what the peer has done before. -/
theorem peer_at {i : ι} {event : Event J} (h : run.history = past ++ .peer i event :: future) :
    ∃ earlier step later mid rest, run.peerSteps i = earlier ++ step :: later ∧
      step.events = mid ++ event :: rest ∧ peerEvents i past = eventsOf earlier ++ mid := by
  have hown : peerEvents i (.peer i event :: future) = event :: peerEvents i future :=
    List.filterMap_cons_some (Happening.peer?_eq_some.mpr rfl)
  have hevents : eventsOf (run.peerSteps i) =
      peerEvents i past ++ event :: peerEvents i future := by
    rw [← run.peer_history, h, peerEvents_append, hown]
  exact eventsOf_split hevents

/-- What a peer has done in the past it has done in one of its operations. -/
theorem peer_in (h : run.history = past ++ future) {i : ι} {event : Event J}
    (hevent : .peer i event ∈ past) :
    ∃ earlier step later mid rest after, run.peerSteps i = earlier ++ step :: later ∧
      step.events = mid ++ event :: rest ∧
      peerEvents i past = (eventsOf earlier ++ mid) ++ event :: after := by
  obtain ⟨before, after, hsplit⟩ := List.append_of_mem (mem_peerEvents.mpr hevent)
  have hevents : eventsOf (run.peerSteps i) =
      before ++ event :: (after ++ peerEvents i future) := by
    rw [← run.peer_history, h, peerEvents_append, hsplit, List.append_assoc, List.cons_append]
  obtain ⟨earlier, step, later, mid, rest, hsteps, hmid, rfl⟩ := eventsOf_split hevents
  exact ⟨earlier, step, later, mid, rest, after, hsteps, hmid, hsplit⟩

end Interleaving
end System

end Auntie.Interaction
