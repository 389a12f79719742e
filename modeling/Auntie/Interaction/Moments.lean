import Auntie.Interaction.Contract

/-!
# Two moments of one run

A relation that holds between every state a program sets and the state it replaces holds between
any two moments of a run: at two calls of one operation, and at calls of two operations.
-/

namespace Auntie.Interaction
variable {I : Interface} {σ α β : Type}

/-- Every state the program sets is related to the one it replaces. -/
def Program.Moves (R : σ → σ → Prop) : Program I σ α → σ → Prop
  | .pure _, _ => True
  | .get next, state => (next state).Moves R state
  | .set state' next, state => R state state' ∧ next.Moves R state'
  | .call _ next, state => ∀ answer, (next answer).Moves R state

namespace Program.Moves
variable {R : σ → σ → Prop} {state last : σ}

theorem value (a : α) : (Pure.pure a : Program I σ α).Moves R state := trivial

theorem bind {p : Program I σ α} {f : α → Program I σ β} (hp : p.Moves R state)
    (hf : ∀ a state, (f a).Moves R state) : (p >>= f).Moves R state := by
  change (p.bind f).Moves R state
  induction p generalizing state with
  | pure value => exact hf value state
  | get next ih => exact ih state hp
  | set state' next ih => exact ⟨hp.1, ih hp.2⟩
  | call c next ih => exact fun answer => ih answer (hp answer)

theorem get_bind {f : σ → Program I σ α} (h : (f state).Moves R state) :
    ((MonadState.get : Program I σ σ) >>= f).Moves R state := h

theorem update {f : σ → σ} (h : R state (f state)) :
    (modify f : Program I σ PUnit).Moves R state := ⟨h, trivial⟩

theorem mono {R' : σ → σ → Prop} {p : Program I σ α} (h : p.Moves R state)
    (himp : ∀ first second, R first second → R' first second) : p.Moves R' state := by
  induction p generalizing state with
  | pure value => trivial
  | get next ih => exact ih state h
  | set state' next ih => exact ⟨himp _ _ h.1, ih h.2⟩
  | call c next ih => exact fun answer => ih answer (h answer)

/-- Inside a frame all states are related. -/
theorem of_within {allowed : {β : Type} → I β → Prop} {keeps : σ → Prop} {p : Program I σ α}
    (h : p.Within allowed keeps) (hstate : keeps state)
    (hkeeps : ∀ first second, keeps first → keeps second → R first second) : p.Moves R state := by
  induction p generalizing state with
  | pure value => trivial
  | get next ih => exact ih state (h state hstate) hstate
  | set state' next ih => exact ⟨hkeeps state state' hstate h.1, ih h.2 h.1⟩
  | call c next ih => exact fun answer => ih answer (h.2 answer) hstate

variable {events : List (Event I)} {result : Option α} {p : Program I σ α}
variable (hrefl : ∀ state, R state state)
variable (htrans : ∀ first second third, R first second → R second third → R first third)
include hrefl htrans

theorem reaches (h : p.Moves R state) (hexec : Exec p state events last result) : R state last := by
  induction hexec with
  | pure => exact hrefl _
  | get _ ih => exact ih h
  | set _ ih => exact htrans _ _ _ h.1 (ih h.2)
  | waiting => exact hrefl _
  | answered answer _ ih => exact ih (h answer)

/-- Of two executions the longer one has gone through the last state of the other. -/
theorem between {more : List (Event I)} {final : σ} {result' : Option α} (h : p.Moves R state)
    (hexec : Exec p state events last result) (hmore : Exec p state more final result')
    (hevents : events <+: more) : R last final := by
  induction hexec generalizing more with
  | pure =>
    cases hmore
    exact hrefl _
  | get _ ih =>
    cases hmore with
    | get hmore => exact ih h hmore hevents
  | set _ ih =>
    cases hmore with
    | set hmore => exact ih h.2 hmore hevents
  | waiting => exact h.reaches hrefl htrans hmore
  | answered answer _ ih =>
    cases hmore with
    | waiting => simp at hevents
    | answered answer' hmore =>
      rw [List.cons_prefix_cons, List.cons_prefix_cons] at hevents
      obtain ⟨_, hanswer, hevents⟩ := hevents
      cases hanswer
      exact ih (h answer) hmore hevents

end Program.Moves

variable {comp : Component I σ} {init last final : σ}

theorem Trace.of_nil (trace : Trace comp init [] last) : last = init := by
  generalize hnone : ([] : List (Step comp)) = steps at trace
  cases trace with
  | resting run =>
    subst hnone
    exact run.of_nil
  | inside => simp at hnone

/-- After its last operation a trace is in the state that leaves. -/
theorem Trace.of_singleton {step : Step comp} (trace : Trace comp init [step] last) :
    last = step.after := by
  generalize hsingle : [step] = steps at trace
  cases trace with
  | resting run =>
    cases run with
    | start => cases hsingle
    | @next earlier final run =>
      have hsplit : [] ++ [_] = _ ++ [_] := hsingle
      obtain ⟨_, hsame⟩ := List.append_inj' hsplit rfl
      cases hsame
      rfl
  | @inside earlier final run =>
    have hsplit : [] ++ [_] = _ ++ [_] := hsingle
    obtain ⟨_, hsame⟩ := List.append_inj' hsplit rfl
    cases hsame
    rfl

/-- The first trace is an earlier moment of the run the second one is of. -/
inductive Precedes : List (Step comp) → List (Step comp) → Prop
  | start (later : List (Step comp)) : Precedes [] later
  | inside {part whole : Step comp} (op : part.op = whole.op) (events : part.events <+: whole.events)
      (later : List (Step comp)) : Precedes [part] (whole :: later)
  | next (step : Step comp) {earlier later : List (Step comp)} (rest : Precedes earlier later) :
      Precedes (step :: earlier) (step :: later)

section Moments
variable {R : σ → σ → Prop} (hrefl : ∀ state, R state state)
variable (htrans : ∀ first second third, R first second → R second third → R first third)
variable (hmoves : ∀ op state, (comp.handle op).Moves R state)
include hrefl htrans hmoves

theorem Trace.moves {steps : List (Step comp)} (trace : Trace comp init steps last) :
    R init last := by
  induction steps generalizing init with
  | nil => exact trace.of_nil ▸ hrefl init
  | cons step steps ih =>
    obtain ⟨rfl, valid, hfinished, hwaiting⟩ := trace.of_cons
    have hstep : R step.before step.after :=
      (hmoves step.op step.before).reaches hrefl htrans valid
    cases hresult : step.result with
    | none =>
      obtain rfl : steps = [] := hwaiting hresult
      exact trace.of_singleton ▸ hstep
    | some ret =>
      have hrest : R step.after last := ih (hfinished (by rw [hresult]; rfl))
      exact htrans _ _ _ hstep hrest

/-- Any two moments of a run are related. -/
theorem Trace.between {earlier later : List (Step comp)} (trace : Trace comp init earlier last)
    (longer : Trace comp init later final) (h : Precedes earlier later) : R last final := by
  induction h generalizing init with
  | start later =>
    rw [trace.of_nil]
    exact longer.moves hrefl htrans hmoves
  | @inside part whole op events later =>
    obtain ⟨hbefore, valid, _, _⟩ := trace.of_cons
    obtain ⟨hbefore', valid', hfinished, hwaiting⟩ := longer.of_cons
    have hexec : Exec (comp.handle whole.op) whole.before part.events part.after part.result := by
      rw [← op, hbefore', ← hbefore]
      exact valid
    have hpart : R part.after whole.after :=
      (hmoves whole.op whole.before).between hrefl htrans hexec valid' events
    rw [trace.of_singleton]
    cases hresult : whole.result with
    | none =>
      obtain rfl : later = [] := hwaiting hresult
      rw [longer.of_singleton]
      exact hpart
    | some ret =>
      have hrest : R whole.after final :=
        (hfinished (by rw [hresult]; rfl)).moves hrefl htrans hmoves
      exact htrans _ _ _ hpart hrest
  | next step rest ih =>
    obtain ⟨rfl, _, hfinished, hwaiting⟩ := trace.of_cons
    obtain ⟨_, _, hfinished', hwaiting'⟩ := longer.of_cons
    cases hresult : step.result with
    | none =>
      obtain rfl := hwaiting hresult
      obtain rfl := hwaiting' hresult
      rw [trace.of_singleton, longer.of_singleton]
      exact hrefl _
    | some ret =>
      have hsome : step.result.isSome := by rw [hresult]; rfl
      exact ih (hfinished hsome) (hfinished' hsome)

end Moments

end Auntie.Interaction
