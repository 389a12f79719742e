import Auntie.Interaction.Program

/-!
# Runs of a component

A component answers operations one at a time: each operation is a program over
the component's state. A run is the list of the operations that have returned; a
trace may also stand inside one more, which waits for the environment. The log of
a run is what an observer outside sees of it.

An invariant that every operation preserves holds in every state a run reaches,
and every call of the log was issued where the invariant made it safe.
-/

namespace Auntie.Interaction

structure Component (I : Interface) (σ : Type) where
  Op : Type
  Ret : Type
  handle : Op → Program I σ Ret

variable {I : Interface} {σ : Type} {M : Type*}

inductive Entry (comp : Component I σ) where
  | entered (op : comp.Op)
  | host (event : Event I)
  | returned (op : comp.Op) (ret : comp.Ret)

/-- One operation of a run; without a result it has not returned. -/
structure Step (comp : Component I σ) where
  before : σ
  op : comp.Op
  events : List (Event I)
  after : σ
  result : Option comp.Ret

variable {comp : Component I σ}

namespace Step

def Valid (step : Step comp) : Prop :=
  Exec (comp.handle step.op) step.before step.events step.after step.result

def log (step : Step comp) : List (Entry comp) :=
  .entered step.op :: step.events.map .host ++ (step.result.map (.returned step.op)).toList

end Step

/-- Operations that have returned, from the first state to the last. -/
inductive Run (comp : Component I σ) (init : σ) : List (Step comp) → σ → Prop
  | start : Run comp init [] init
  | next {steps : List (Step comp)} {step : Step comp} (run : Run comp init steps step.before)
      (valid : step.Valid) (finished : step.result.isSome) :
      Run comp init (steps ++ [step]) step.after

/-- A run at rest, or inside an operation that waits. -/
inductive Trace (comp : Component I σ) (init : σ) : List (Step comp) → σ → Prop
  | resting {steps : List (Step comp)} {state : σ} (run : Run comp init steps state) :
      Trace comp init steps state
  | inside {steps : List (Step comp)} {step : Step comp} (run : Run comp init steps step.before)
      (valid : step.Valid) (waiting : step.result = none) :
      Trace comp init (steps ++ [step]) step.after

theorem Run.finished {init state : σ} {steps : List (Step comp)} (run : Run comp init steps state) :
    ∀ step ∈ steps, step.result.isSome := by
  induction run with
  | start => simp
  | @next steps step _ _ finished ih =>
    intro other hother
    rcases List.mem_append.mp hother with hearlier | hlast
    · exact ih other hearlier
    · rw [List.mem_singleton.mp hlast]
      exact finished

/-- What an observer outside sees. -/
def logOf (steps : List (Step comp)) : List (Entry comp) := steps.flatMap Step.log

theorem logOf_append (steps : List (Step comp)) (step : Step comp) :
    logOf (steps ++ [step]) = logOf steps ++ step.log := by
  simp [logOf]

theorem mem_logOf_returned {steps : List (Step comp)} {op : comp.Op} {ret : comp.Ret}
    (h : .returned op ret ∈ logOf steps) : op ∈ steps.map Step.op := by
  obtain ⟨step, hstep, hlog⟩ := List.mem_flatMap.mp h
  refine List.mem_map.mpr ⟨step, hstep, ?_⟩
  simp only [Step.log, List.mem_cons, reduceCtorEq, List.mem_append, List.mem_map, and_false,
    exists_false, false_or, Option.mem_toList, Option.map_eq_some_iff, Entry.returned.injEq,
    exists_eq_right_right] at hlog
  exact hlog.2

theorem mem_logOf_issued {steps : List (Step comp)} {step : Step comp} {β : Type} {c : I β}
    (hstep : step ∈ steps) (h : .issued c ∈ step.events) : .host (.issued c) ∈ logOf steps :=
  List.mem_flatMap.mpr ⟨step, hstep, by simp [Step.log, h]⟩

/-- An event of the log belongs to a step. -/
theorem mem_logOf_host {steps : List (Step comp)} {event : Event I}
    (h : .host event ∈ logOf steps) : ∃ step ∈ steps, event ∈ step.events := by
  obtain ⟨step, hstep, hlog⟩ := List.mem_flatMap.mp h
  refine ⟨step, hstep, ?_⟩
  simpa [Step.log] using hlog

/-- An automaton that reads the log. -/
structure Observer (comp : Component I σ) (M : Type*) where
  enter : M → comp.Op → M := fun m _ => m
  host : Monitor I σ M
  leave : M → comp.Op → comp.Ret → M := fun m _ _ => m

namespace Observer

def observe (obs : Observer comp M) (m : M) : Entry comp → M
  | .entered op => obs.enter m op
  | .host event => obs.host.observe m event
  | .returned op ret => obs.leave m op ret

/-- The operation establishes the invariant when it returns, and issues safe calls. -/
def Preserves (obs : Observer comp M) (inv : σ → M → Prop) (op : comp.Op) (state : σ) (m : M) :
    Prop :=
  wp obs.host (fun ret last m' => inv last (obs.leave m' op ret)) (comp.handle op) state
    (obs.enter m op)

end Observer

namespace Observer
variable (obs : Observer comp M)

/-- Every call of a log was safe, in some state of the component, when it was issued. -/
def Accepts : M → List (Entry comp) → Prop
  | _, [] => True
  | m, .host (.issued c) :: log =>
      (∃ current, obs.host.safe current m c) ∧
        Accepts (obs.observe m (.host (.issued c))) log
  | m, entry :: log => Accepts (obs.observe m entry) log

theorem accepts_append (m : M) (first second : List (Entry comp)) :
    obs.Accepts m (first ++ second) ↔
      obs.Accepts m first ∧ obs.Accepts (first.foldl obs.observe m) second := by
  induction first generalizing m with
  | nil => simp [Accepts]
  | cons entry first ih =>
    rcases entry with op | (c | ⟨c, answer⟩) | ⟨op, ret⟩
    · simp [Accepts, ih]
    · simp [Accepts, ih, and_assoc]
    · simp [Accepts, ih]
    · simp [Accepts, ih]

theorem accepts_events (m : M) (events : List (Event I)) :
    obs.Accepts m (events.map .host) ↔ obs.host.Accepts m events := by
  induction events generalizing m with
  | nil => rfl
  | cons event events ih =>
    cases event with
    | issued c => exact and_congr Iff.rfl (ih _)
    | answered c answer => exact ih _

/-- What acceptance says of one call of the log. -/
theorem Accepts.issued {m : M} {before after : List (Entry comp)} {β : Type} {c : I β}
    (h : obs.Accepts m (before ++ .host (.issued c) :: after)) :
    ∃ current, obs.host.safe current (before.foldl obs.observe m) c :=
  ((obs.accepts_append m _ _).mp h).2.1

theorem foldl_events (m : M) (events : List (Event I)) :
    (events.map Entry.host).foldl obs.observe m = events.foldl obs.host.observe m := by
  rw [List.foldl_map]
  rfl

end Observer

section Rules
variable {obs : Observer comp M} {inv : σ → M → Prop} {init : σ} {m : M}
variable {steps : List (Step comp)} {state : σ}

/-- What a step returned satisfies the postcondition. -/
theorem Step.Valid.returned {step : Step comp} (valid : step.Valid) {ret : comp.Ret}
    (hret : step.result = some ret) {post : comp.Ret → σ → M → Prop}
    (h : wp obs.host (fun ret last m' => post ret last (obs.leave m' step.op ret))
      (comp.handle step.op) step.before (obs.enter m step.op)) :
    post ret step.after (step.log.foldl obs.observe m) := by
  obtain ⟨before, op, events, after, result⟩ := step
  cases hret
  have hpost := Exec.returned valid h
  simpa [Step.log, Observer.foldl_events, Observer.observe] using hpost

theorem Step.Valid.preserved {step : Step comp} (valid : step.Valid)
    (finished : step.result.isSome) (h : obs.Preserves inv step.op step.before m) :
    inv step.after (step.log.foldl obs.observe m) := by
  obtain ⟨ret, hret⟩ := Option.isSome_iff_exists.mp finished
  exact valid.returned hret h

theorem Step.Valid.accepts {step : Step comp} (valid : step.Valid)
    (h : obs.Preserves inv step.op step.before m) : obs.Accepts m step.log := by
  have hevents := (obs.accepts_events _ _).mpr (Exec.accepts valid h)
  have hreturned : ∀ m, obs.Accepts m (step.result.map (.returned step.op)).toList := by
    intro m
    cases step.result with
    | none => trivial
    | some ret => trivial
  exact (obs.accepts_append _ (.entered step.op :: step.events.map .host) _).mpr
    ⟨hevents, hreturned _⟩

/-- The invariant rule for runs whose steps all meet a condition. -/
theorem Run.invariant_of_steps {meets : Step comp → Prop} (run : Run comp init steps state)
    (hmeets : ∀ step ∈ steps, meets step) (hinit : inv init m)
    (hstep : ∀ (step : Step comp) (m : M), step.Valid → step.result.isSome → meets step →
      inv step.before m → inv step.after (step.log.foldl obs.observe m)) :
    inv state ((logOf steps).foldl obs.observe m) := by
  induction run with
  | start => exact hinit
  | @next steps step _ valid finished ih =>
    have hbefore := ih fun s hs => hmeets s (List.mem_append_left _ hs)
    rw [logOf_append, List.foldl_append]
    exact hstep step _ valid finished (hmeets step (by simp)) hbefore

variable {admits : σ → comp.Op → Prop}

/-- The invariant rule for a host that makes only admitted calls into the component. -/
theorem Run.invariant (run : Run comp init steps state)
    (hadmits : ∀ step ∈ steps, admits step.before step.op) (hinit : inv init m)
    (hstep : ∀ op state m, admits state op → inv state m → obs.Preserves inv op state m) :
    inv state ((logOf steps).foldl obs.observe m) :=
  run.invariant_of_steps hadmits hinit fun _ _ valid finished hadmitted hinv =>
    valid.preserved finished (hstep _ _ _ hadmitted hinv)

theorem Run.accepts (run : Run comp init steps state)
    (hadmits : ∀ step ∈ steps, admits step.before step.op) (hinit : inv init m)
    (hstep : ∀ op state m, admits state op → inv state m → obs.Preserves inv op state m) :
    obs.Accepts m (logOf steps) := by
  induction run with
  | start => trivial
  | @next steps step run valid finished ih =>
    have hearlier : ∀ s ∈ steps, admits s.before s.op :=
      fun s hs => hadmits s (List.mem_append_left _ hs)
    have hinv := run.invariant hearlier hinit hstep
    rw [logOf_append]
    exact (obs.accepts_append m _ _).mpr
      ⟨ih hearlier, valid.accepts (hstep _ _ _ (hadmits step (by simp)) hinv)⟩

/-- Every call of a trace, the one it waits at included, was safe when issued. -/
theorem Trace.accepts (trace : Trace comp init steps state)
    (hadmits : ∀ step ∈ steps, admits step.before step.op) (hinit : inv init m)
    (hstep : ∀ op state m, admits state op → inv state m → obs.Preserves inv op state m) :
    obs.Accepts m (logOf steps) := by
  cases trace with
  | resting run => exact run.accepts hadmits hinit hstep
  | @inside steps step run valid waiting =>
    have hearlier : ∀ s ∈ steps, admits s.before s.op :=
      fun s hs => hadmits s (List.mem_append_left _ hs)
    have hinv := run.invariant hearlier hinit hstep
    rw [logOf_append]
    exact (obs.accepts_append m _ _).mpr
      ⟨run.accepts hearlier hinit hstep,
        valid.accepts (hstep _ _ _ (hadmits step (by simp)) hinv)⟩

/-- At the end of a trace the invariant holds, or a call waits that is safe. -/
theorem Trace.ended (trace : Trace comp init steps state)
    (hadmits : ∀ step ∈ steps, admits step.before step.op) (hinit : inv init m)
    (hstep : ∀ op state m, admits state op → inv state m → obs.Preserves inv op state m) :
    inv state ((logOf steps).foldl obs.observe m) ∨
      ∃ before, ∃ (β : Type) (c : I β), logOf steps = before ++ [.host (.issued c)] ∧
        obs.host.safe state (before.foldl obs.observe m) c := by
  cases trace with
  | resting run => exact .inl (run.invariant hadmits hinit hstep)
  | @inside steps step run valid waiting =>
    have hinv := run.invariant (fun s hs => hadmits s (List.mem_append_left _ hs)) hinit hstep
    have hexec : Exec (comp.handle step.op) step.before step.events step.after none := waiting ▸ valid
    obtain ⟨before, β, c, hevents, hsafe⟩ :=
      hexec.waiting_safe (hstep _ _ _ (hadmits step (by simp)) hinv)
    refine .inr ⟨logOf steps ++ .entered step.op :: before.map .host, β, c, ?_, ?_⟩
    · simp [logOf_append, Step.log, waiting, hevents]
    · rw [List.foldl_append, List.foldl_cons, Observer.foldl_events]
      exact hsafe

end Rules

section History
variable {init state : σ} {steps : List (Step comp)}

/-- A property of every step and the steps before it. -/
def Throughout (meets : List (Step comp) → Step comp → Prop) (steps : List (Step comp)) : Prop :=
  ∀ earlier step later, steps = earlier ++ step :: later → meets earlier step

namespace Throughout
variable {meets : List (Step comp) → Step comp → Prop}

theorem nil : Throughout meets [] := by
  intro earlier step later h
  simp at h

theorem append_singleton {step : Step comp} :
    Throughout meets (steps ++ [step]) ↔ Throughout meets steps ∧ meets steps step := by
  constructor
  · intro h
    refine ⟨fun earlier other later hsplit => ?_, h steps step [] rfl⟩
    exact h earlier other (later ++ [step]) (by rw [hsplit]; simp)
  · rintro ⟨hearlier, hlast⟩ earlier other later hsplit
    rcases List.eq_nil_or_concat later with rfl | ⟨later, last, rfl⟩
    · obtain ⟨rfl, hsame⟩ := List.append_inj' hsplit rfl
      cases hsame
      exact hlast
    · rw [List.concat_eq_append, ← List.cons_append, ← List.append_assoc] at hsplit
      exact hearlier earlier other later (List.append_inj' hsplit rfl).1

end Throughout

variable {inv : List (Step comp) → σ → Prop} {meets : List (Step comp) → Step comp → Prop}

theorem Run.throughout (run : Run comp init steps state) (hmeets : Throughout meets steps)
    (hinit : inv [] init)
    (hstep : ∀ (earlier : List (Step comp)) (step : Step comp), inv earlier step.before →
      step.Valid → step.result.isSome → meets earlier step → inv (earlier ++ [step]) step.after) :
    inv steps state ∧
      Throughout (fun earlier step => inv earlier step.before ∧ step.Valid ∧ meets earlier step)
        steps := by
  induction run with
  | start => exact ⟨hinit, .nil⟩
  | @next steps step _ valid finished ih =>
    obtain ⟨hearlier, hlast⟩ := Throughout.append_singleton.mp hmeets
    obtain ⟨hinv, hthroughout⟩ := ih hearlier
    exact ⟨hstep steps step hinv valid finished hlast,
      Throughout.append_singleton.mpr ⟨hthroughout, hinv, valid, hlast⟩⟩

/-- The invariant rule where the invariant and what a step has to meet speak of the steps
before: every step of a trace starts where the invariant holds. -/
theorem Trace.throughout (trace : Trace comp init steps state) (hmeets : Throughout meets steps)
    (hinit : inv [] init)
    (hstep : ∀ (earlier : List (Step comp)) (step : Step comp), inv earlier step.before →
      step.Valid → step.result.isSome → meets earlier step → inv (earlier ++ [step]) step.after) :
    Throughout (fun earlier step => inv earlier step.before ∧ step.Valid ∧ meets earlier step)
      steps := by
  cases trace with
  | resting run => exact (run.throughout hmeets hinit hstep).2
  | @inside steps step run valid waiting =>
    obtain ⟨hearlier, hlast⟩ := Throughout.append_singleton.mp hmeets
    obtain ⟨hinv, hthroughout⟩ := run.throughout hearlier hinit hstep
    exact Throughout.append_singleton.mpr ⟨hthroughout, hinv, valid, hlast⟩

/-- Every step of a trace is valid and starts where an invariant of the state holds. -/
theorem Trace.steps_inv {inv : σ → Prop} (trace : Trace comp init steps state) (hinit : inv init)
    (hstep : ∀ step : Step comp, inv step.before → step.Valid → step.result.isSome → inv step.after) :
    ∀ step ∈ steps, inv step.before ∧ step.Valid := by
  intro step hmem
  obtain ⟨earlier, later, hsplit⟩ := List.append_of_mem hmem
  have hthroughout : Throughout (fun _ step => inv step.before ∧ step.Valid ∧ True) steps :=
    trace.throughout (fun _ _ _ _ => trivial) hinit
      fun _ step hbefore valid finished _ => hstep step hbefore valid finished
  obtain ⟨hbefore, valid, -⟩ := hthroughout earlier step later hsplit
  exact ⟨hbefore, valid⟩

theorem Trace.valid_of_mem (trace : Trace comp init steps state) {step : Step comp}
    (hstep : step ∈ steps) : step.Valid := by
  have hsteps := @Trace.steps_inv I σ comp init state steps (fun _ => True) trace trivial
    fun _ _ _ _ => trivial
  exact (hsteps step hstep).2

section Steps
variable {rests : σ → Prop} {meets good : Step comp → Prop}
variable (hinit : rests init)
variable (hgood : ∀ step : Step comp, rests step.before → step.Valid → (good step ↔ meets step))
variable (hrests : ∀ step : Step comp, rests step.before → step.Valid → step.result.isSome →
  good step → rests step.after)
include hinit hgood hrests

theorem Run.steps_iff (run : Run comp init steps state) :
    ((∀ step ∈ steps, good step) ↔ ∀ step ∈ steps, meets step) ∧
      ((∀ step ∈ steps, good step) → rests state) := by
  induction run with
  | start => exact ⟨iff_of_true (List.forall_mem_nil _) (List.forall_mem_nil _), fun _ => hinit⟩
  | @next steps step _ valid finished ih =>
    obtain ⟨hsteps, hbefore⟩ := ih
    simp only [List.forall_mem_append, List.forall_mem_singleton]
    constructor
    · rw [← hsteps]
      exact and_congr_right fun hall => hgood step (hbefore hall) valid
    · intro hall
      exact hrests step (hbefore hall.1) valid finished hall.2

/-- Where good steps lead from rest to rest, and a step from rest is good under a condition, all
steps of a trace are good if and only if all meet the condition. -/
theorem Trace.steps_iff (trace : Trace comp init steps state) :
    (∀ step ∈ steps, good step) ↔ ∀ step ∈ steps, meets step := by
  cases trace with
  | resting run => exact (run.steps_iff hinit hgood hrests).1
  | @inside steps step run valid waiting =>
    obtain ⟨hsteps, hbefore⟩ := run.steps_iff hinit hgood hrests
    simp only [List.forall_mem_append, List.forall_mem_singleton]
    rw [← hsteps]
    exact and_congr_right fun hall => hgood step (hbefore hall) valid

end Steps

end History

section Play
variable (comp : Component I σ) (host : {β : Type} → Nat → I β → Option β)

/-- One operation against a host given as a function. -/
def playStep (time : Nat) (before : σ) (op : comp.Op) : Step comp :=
  let played := play host time (comp.handle op) before
  ⟨before, op, played.1, played.2.1, played.2.2⟩

theorem playStep_valid (time : Nat) (before : σ) (op : comp.Op) :
    (playStep comp host time before op).Valid :=
  exec_play host _ _ _

/-- Operations one after the other. -/
def playRun (time : Nat) (before : σ) : List comp.Op → List (Step comp)
  | [] => []
  | op :: ops =>
    let step := playStep comp host time before op
    step :: playRun (time + step.events.length) step.after ops

def lastState (init : σ) (steps : List (Step comp)) : σ :=
  steps.foldl (fun _ step => step.after) init

theorem run_append_playRun {init state : σ} {earlier : List (Step comp)} (time : Nat)
    (run : Run comp init earlier state) (ops : List comp.Op)
    (finished : ∀ step ∈ playRun comp host time state ops, step.result.isSome) :
    Run comp init (earlier ++ playRun comp host time state ops)
      (lastState comp state (playRun comp host time state ops)) := by
  induction ops generalizing earlier time state with
  | nil => simpa [playRun, lastState] using run
  | cons op ops ih =>
    have hrun := Run.next run (playStep_valid comp host time state op)
      (finished _ List.mem_cons_self)
    have hrest := ih _ hrun fun step hstep => finished step (List.mem_cons_of_mem _ hstep)
    simpa [playRun, lastState] using hrest

theorem run_playRun (init : σ) (ops : List comp.Op)
    (finished : (playRun comp host 0 init ops).all fun step => step.result.isSome) :
    Run comp init (playRun comp host 0 init ops)
      (lastState comp init (playRun comp host 0 init ops)) :=
  run_append_playRun comp host 0 .start ops (List.all_eq_true.mp finished)

variable {comp} {host} {time : Nat} {init : σ} {ops : List comp.Op}

/-- Every answer in the log is the host's. -/
theorem playRun_answered {β : Type} {c : I β} {answer : β}
    (h : .host (.answered c answer) ∈ logOf (playRun comp host time init ops)) :
    ∃ time', host time' c = some answer := by
  induction ops generalizing time init with
  | nil => simp [playRun, logOf] at h
  | cons op ops ih =>
    simp only [playRun, logOf, List.flatMap_cons, List.mem_append] at h
    rcases h with h | h
    · simp only [Step.log, List.mem_cons, reduceCtorEq, List.mem_append, List.mem_map, false_or,
        Option.mem_toList, Option.map_eq_some_iff, and_false, exists_false, or_false] at h
      obtain ⟨event, hevent, hsame⟩ := h
      cases hsame
      exact play_answered hevent
    · exact ih h

theorem playRun_ops : (playRun comp host time init ops).map Step.op = ops := by
  induction ops generalizing time init with
  | nil => rfl
  | cons op ops ih => exact congrArg _ ih

end Play

end Auntie.Interaction
