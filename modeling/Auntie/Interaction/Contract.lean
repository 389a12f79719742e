import Auntie.Interaction.Session

/-!
# Programs in an environment that keeps a contract

A contract is a monitor together with what it assumes of the answers. `Contract.wp` demands
of a program what it does while every answer is as assumed; `Honours` says of a trace that its
answers are. `safe` may then say that an answer of the assumed kind exists: a program that has
not returned waits at a call that the contract allows to be answered.
-/

namespace Auntie.Interaction

/-- A monitor and the answers it assumes. -/
structure Contract (I : Interface) (σ : Type) (M : Type*) extends Monitor I σ M where
  assumes {β : Type} : M → I β → β → Prop := fun _ _ _ => True

variable {I : Interface} {σ α β : Type} {M : Type*}

namespace Contract
variable (con : Contract I σ M)

/-- The answers of a trace are as assumed. -/
def Honours : M → List (Event I) → Prop
  | _, [] => True
  | m, .issued c :: events => Honours (con.issued m c) events
  | m, .answered c answer :: events =>
      con.assumes m c answer ∧ Honours (con.answered m c answer) events

instance decidableHonours [assumed : ∀ {β : Type} (m : M) (c : I β) (answer : β),
    Decidable (con.assumes m c answer)] : ∀ m events, Decidable (con.Honours m events)
  | _, [] => inferInstanceAs (Decidable True)
  | m, .issued c :: events => decidableHonours (con.issued m c) events
  | m, .answered c answer :: events =>
    @instDecidableAnd _ _ (assumed m c answer) (decidableHonours (con.answered m c answer) events)

/-- As long as the answers are as assumed, every call is safe and every result satisfies
`post`. -/
def wp (post : α → σ → M → Prop) : Program I σ α → σ → M → Prop
  | .pure value, state, m => post value state m
  | .get next, state, m => wp post (next state) state m
  | .set state next, _, m => wp post next state m
  | .call c next, state, m => con.safe state m c ∧
      ∀ answer, con.assumes (con.issued m c) c answer →
        wp post (next answer) state (con.answered (con.issued m c) c answer)

variable {con} {post : α → σ → M → Prop} {state : σ} {m : M}

@[simp] theorem wp_pure {value : α} :
    con.wp post (pure value : Program I σ α) state m ↔ post value state m := Iff.rfl

@[simp] theorem wp_get {post : σ → σ → M → Prop} :
    con.wp post (get : Program I σ σ) state m ↔ post state state m := Iff.rfl

@[simp] theorem wp_set {post : PUnit → σ → M → Prop} {state' : σ} :
    con.wp post (set state' : Program I σ PUnit) state m ↔ post () state' m := Iff.rfl

@[simp] theorem wp_modify {post : PUnit → σ → M → Prop} {f : σ → σ} :
    con.wp post (modify f : Program I σ PUnit) state m ↔ post () (f state) m := Iff.rfl

@[simp] theorem wp_issue {c : I α} :
    con.wp post (issue c : Program I σ α) state m ↔ con.safe state m c ∧
      ∀ answer, con.assumes (con.issued m c) c answer →
        post answer state (con.answered (con.issued m c) c answer) := Iff.rfl

@[simp] theorem wp_bind {p : Program I σ α} {f : α → Program I σ β} {post : β → σ → M → Prop} :
    con.wp post (p >>= f) state m ↔
      con.wp (fun value state m => con.wp post (f value) state m) p state m := by
  change con.wp post (p.bind f) state m ↔ _
  induction p generalizing state m with
  | pure value => rfl
  | get next ih => exact ih state
  | set state' next ih => exact ih
  | call c next ih =>
    exact and_congr Iff.rfl (forall_congr' fun answer => imp_congr Iff.rfl (ih answer))

@[simp] theorem wp_ite {c : Prop} [Decidable c] {p q : Program I σ α} :
    con.wp post (if c then p else q) state m ↔
      (c → con.wp post p state m) ∧ (¬c → con.wp post q state m) := by
  by_cases h : c
  · simp [h]
  · simp [h]

@[simp] theorem wp_dite {c : Prop} [Decidable c] {p : c → Program I σ α}
    {q : ¬c → Program I σ α} :
    con.wp post (if h : c then p h else q h) state m ↔
      (∀ h : c, con.wp post (p h) state m) ∧ (∀ h : ¬c, con.wp post (q h) state m) := by
  by_cases h : c
  · simp [h]
  · simp [h]

theorem wp_mono {p : Program I σ α} {post' : α → σ → M → Prop}
    (himp : ∀ value state m, post value state m → post' value state m)
    (h : con.wp post p state m) : con.wp post' p state m := by
  induction p generalizing state m with
  | pure value => exact himp value state m h
  | get next ih => exact ih state h
  | set state' next ih => exact ih h
  | call c next ih => exact ⟨h.1, fun answer hassumed => ih answer (h.2 answer hassumed)⟩

variable {events : List (Event I)} {last : σ} {p : Program I σ α}

theorem honours_append {first second : List (Event I)} :
    con.Honours m (first ++ second) ↔
      con.Honours m first ∧ con.Honours (first.foldl con.observe m) second := by
  induction first generalizing m with
  | nil => simp [Honours]
  | cons event first ih =>
    cases event with
    | issued c => exact ih
    | answered c answer => exact (and_congr Iff.rfl ih).trans and_assoc.symm

/-- An assumption that does not depend on what was observed is honoured answer by answer. -/
theorem honours_of_answers
    (h : ∀ {β : Type} (c : I β) (answer : β), .answered c answer ∈ events →
      ∀ m, con.assumes m c answer) : con.Honours m events := by
  induction events generalizing m with
  | nil => trivial
  | cons event events ih =>
    have hrest : ∀ m, con.Honours m events :=
      fun m => ih fun c answer hmem => h c answer (List.mem_cons_of_mem _ hmem)
    cases event with
    | issued c => exact hrest _
    | answered c answer => exact ⟨h c answer List.mem_cons_self m, hrest _⟩

/-- A result of a run whose answers are as assumed satisfies the postcondition. -/
theorem returned {value : α} (hexec : Exec p state events last (some value))
    (hhonours : con.Honours m events) (h : con.wp post p state m) :
    post value last (events.foldl con.observe m) := by
  generalize hresult : some value = result at hexec
  induction hexec generalizing m with
  | pure =>
    cases hresult
    exact h
  | get _ ih => exact ih hhonours h hresult
  | set _ ih => exact ih hhonours h hresult
  | waiting => cases hresult
  | answered answer _ ih => exact ih hhonours.2 (h.2 answer hhonours.1) hresult

/-- A run that waits stands at a safe call. -/
theorem waiting (hexec : Exec p state events last none) (hhonours : con.Honours m events)
    (h : con.wp post p state m) :
    ∃ before, ∃ (β : Type) (c : I β), events = before ++ [.issued c] ∧
      con.safe last (before.foldl con.observe m) c := by
  generalize hresult : (none : Option α) = result at hexec
  induction hexec generalizing m with
  | pure => cases hresult
  | get _ ih => exact ih hhonours h hresult
  | set _ ih => exact ih hhonours h hresult
  | @waiting β c _ current => exact ⟨[], β, c, rfl, h.1⟩
  | @answered _ c _ _ _ _ _ answer _ ih =>
    obtain ⟨before, β, c', rfl, hsafe⟩ := ih hhonours.2 (h.2 answer hhonours.1) hresult
    exact ⟨.issued c :: .answered c answer :: before, β, c', rfl, hsafe⟩

end Contract

section Front
variable {comp : Component I σ} {init last : σ} {step : Step comp} {steps : List (Step comp)}

/-- The events of the operations, one after the other. -/
def eventsOf (steps : List (Step comp)) : List (Event I) := steps.flatMap Step.events

theorem Run.of_nil (run : Run comp init [] last) : last = init := by
  generalize hnone : ([] : List (Step comp)) = steps at run
  cases run with
  | start => rfl
  | next => simp at hnone

/-- A run read from its first operation on. -/
theorem Run.of_cons (run : Run comp init (step :: steps) last) :
    step.before = init ∧ step.Valid ∧ step.result.isSome ∧ Run comp step.after steps last := by
  generalize hall : step :: steps = all at run
  induction run generalizing steps with
  | start => cases hall
  | @next earlier final run valid finished ih =>
    cases earlier with
    | nil =>
      cases hall
      exact ⟨run.of_nil, valid, finished, .start⟩
    | cons first between =>
      rw [List.cons_append, List.cons.injEq] at hall
      obtain ⟨rfl, rfl⟩ := hall
      obtain ⟨hbefore, hvalid, hfinished, hrest⟩ := ih rfl
      exact ⟨hbefore, hvalid, hfinished, .next hrest valid finished⟩

theorem Trace.of_cons (trace : Trace comp init (step :: steps) last) :
    step.before = init ∧ step.Valid ∧ (step.result.isSome → Trace comp step.after steps last) ∧
      (step.result = none → steps = []) := by
  generalize hall : step :: steps = all at trace
  cases trace with
  | resting run =>
    obtain ⟨hbefore, hvalid, hfinished, hrest⟩ := Run.of_cons (hall ▸ run)
    refine ⟨hbefore, hvalid, fun _ => .resting hrest, fun hwaiting => ?_⟩
    rw [hwaiting] at hfinished
    cases hfinished
  | @inside earlier final run valid waiting =>
    cases earlier with
    | nil =>
      cases hall
      refine ⟨run.of_nil, valid, fun hfinished => ?_, fun _ => rfl⟩
      rw [waiting] at hfinished
      cases hfinished
    | cons first between =>
      rw [List.cons_append, List.cons.injEq] at hall
      obtain ⟨rfl, rfl⟩ := hall
      obtain ⟨hbefore, hvalid, hfinished, hrest⟩ := run.of_cons
      refine ⟨hbefore, hvalid, fun _ => .inside hrest valid waiting, fun hwaiting => ?_⟩
      rw [hwaiting] at hfinished
      cases hfinished

end Front

section Runs
variable {comp : Component I σ} {con : Contract I σ M} {inv : σ → M → Prop}
variable {init last : σ} {m : M} {steps : List (Step comp)}

theorem eventsOf_append (steps : List (Step comp)) (step : Step comp) :
    eventsOf (steps ++ [step]) = eventsOf steps ++ step.events := by
  simp [eventsOf]

/-- The last event of a program that has returned is an answer. -/
theorem Exec.ends_answered {p : Program I σ α} {state : σ} {events : List (Event I)} {value : α}
    (hexec : Exec p state events last (some value)) :
    events = [] ∨ ∃ (before : List (Event I)) (β : Type) (c : I β) (answer : β),
      events = before ++ [.answered c answer] := by
  generalize hresult : some value = result at hexec
  induction hexec with
  | pure => exact .inl rfl
  | get _ ih => exact ih hresult
  | set _ ih => exact ih hresult
  | waiting => cases hresult
  | @answered β c _ _ _ events _ answer _ ih =>
    rcases ih hresult with rfl | ⟨before, β', c', answer', rfl⟩
    · exact .inr ⟨[.issued c], β, c, answer, rfl⟩
    · exact .inr ⟨.issued c :: .answered c answer :: before, β', c', answer', rfl⟩

/-- A run at rest waits at no call. -/
theorem Run.not_waiting (run : Run comp init steps last) (earlier : List (Event I)) {β : Type}
    (c : I β) : eventsOf steps ≠ earlier ++ [.issued c] := by
  induction run with
  | start => simp [eventsOf]
  | @next steps step run valid finished ih =>
    obtain ⟨ret, hret⟩ := Option.isSome_iff_exists.mp finished
    have hexec : Exec (comp.handle step.op) step.before step.events step.after (some ret) :=
      hret ▸ valid
    rw [eventsOf_append]
    rcases hexec.ends_answered with hnone | ⟨before, β', c', answer, hevents⟩
    · rw [hnone, List.append_nil]
      exact ih
    · intro hsame
      rw [hevents, ← List.append_assoc] at hsame
      cases (List.append_inj' hsame rfl).2

/-- The invariant rule for runs whose answers are as assumed. -/
theorem Run.honoured (run : Run comp init steps last) (hinit : inv init m)
    (hhonours : con.Honours m (eventsOf steps))
    (hstep : ∀ op state m, inv state m →
      con.wp (fun _ last m => inv last m) (comp.handle op) state m) :
    inv last ((eventsOf steps).foldl con.observe m) := by
  induction run with
  | start => exact hinit
  | @next steps step run valid finished ih =>
    rw [eventsOf_append] at hhonours ⊢
    obtain ⟨hearlier, hevents⟩ := Contract.honours_append.mp hhonours
    obtain ⟨ret, hret⟩ := Option.isSome_iff_exists.mp finished
    have hexec : Exec (comp.handle step.op) step.before step.events step.after (some ret) :=
      hret ▸ valid
    rw [List.foldl_append]
    exact Contract.returned hexec hevents (hstep step.op _ _ (ih hearlier))

/-- A run that waits inside an operation stands at a safe call. -/
theorem Run.honoured_waiting {step : Step comp} (run : Run comp init steps step.before)
    (valid : step.Valid) (waiting : step.result = none) (hinit : inv init m)
    (hhonours : con.Honours m (eventsOf (steps ++ [step])))
    (hstep : ∀ op state m, inv state m →
      con.wp (fun _ last m => inv last m) (comp.handle op) state m) :
    ∃ before, ∃ (β : Type) (c : I β), eventsOf (steps ++ [step]) = before ++ [.issued c] ∧
      con.safe step.after (before.foldl con.observe m) c := by
  rw [eventsOf_append] at hhonours ⊢
  obtain ⟨hearlier, hevents⟩ := Contract.honours_append.mp hhonours
  have hexec : Exec (comp.handle step.op) step.before step.events step.after none := waiting ▸ valid
  have hbefore := run.honoured hinit hearlier hstep
  obtain ⟨before, β, c, hsplit, hsafe⟩ := Contract.waiting hexec hevents (hstep step.op _ _ hbefore)
  refine ⟨eventsOf steps ++ before, β, c, ?_, ?_⟩
  · rw [hsplit, List.append_assoc]
  · rw [List.foldl_append]
    exact hsafe

/-- A trace that ends with a call stands at a safe one. -/
theorem Trace.honoured_waiting (trace : Trace comp init steps last) (hinit : inv init m)
    (hhonours : con.Honours m (eventsOf steps))
    (hstep : ∀ op state m, inv state m →
      con.wp (fun _ last m => inv last m) (comp.handle op) state m)
    {before : List (Event I)} {β : Type} {c : I β} (hevents : eventsOf steps = before ++ [.issued c]) :
    con.safe last (before.foldl con.observe m) c := by
  cases trace with
  | resting run => exact absurd hevents (run.not_waiting before c)
  | inside run valid waiting =>
    obtain ⟨before', β', c', hevents', hsafe⟩ :=
      run.honoured_waiting valid waiting hinit hhonours hstep
    obtain ⟨hbefore, hcall⟩ := List.append_inj' (hevents.symm.trans hevents') rfl
    cases hbefore
    cases hcall
    exact hsafe

end Runs

end Auntie.Interaction
