import Mathlib.Data.List.Basic

/-!
# Programs that call their environment

A program reads and writes a state of its own and calls an environment it does
not trust. Every call has a type of answers, and the environment may give any of
them, or none: a call that is never answered, or that has no answer to give, ends
what the program does. `Exec` is the set of traces this leaves open, with the
state the program is in when the trace stops; every finite behaviour is a trace,
so a property of all traces is one of every moment of every run.

Properties are proved with `wp` against a `Monitor`, an automaton that reads the
trace: `safe` is what has to hold whenever a call is issued. Nothing here names a
program.
-/

namespace Auntie.Interaction

/-- The calls a program may issue, indexed by the type of their answers. -/
abbrev Interface := Type → Type

inductive Program (I : Interface) (σ : Type) (α : Type) : Type 1 where
  | pure (value : α)
  | get (next : σ → Program I σ α)
  | set (state : σ) (next : Program I σ α)
  | call {β : Type} (c : I β) (next : β → Program I σ α)

inductive Event (I : Interface) : Type 1 where
  | issued {β : Type} (c : I β)
  | answered {β : Type} (c : I β) (answer : β)

variable {I : Interface} {σ α β : Type} {M : Type*}

namespace Program

protected def bind : Program I σ α → (α → Program I σ β) → Program I σ β
  | .pure value, rest => rest value
  | .get next, rest => .get fun state => (next state).bind rest
  | .set state next, rest => .set state (next.bind rest)
  | .call c next, rest => .call c fun answer => (next answer).bind rest

instance : Monad (Program I σ) where
  pure := .pure
  bind := Program.bind

instance : MonadStateOf σ (Program I σ) where
  get := .get .pure
  set state := .set state (.pure ())
  modifyGet f := .get fun state => .set (f state).2 (.pure (f state).1)

theorem bind_pure (p : Program I σ α) : p.bind .pure = p := by
  induction p with
  | pure value => rfl
  | get next ih => exact congrArg _ (funext ih)
  | set state next ih => exact congrArg _ ih
  | call c next ih => exact congrArg _ (funext ih)

theorem bind_assoc {γ : Type} (p : Program I σ α) (f : α → Program I σ β)
    (g : β → Program I σ γ) : (p.bind f).bind g = p.bind fun value => (f value).bind g := by
  induction p with
  | pure value => rfl
  | get next ih => exact congrArg _ (funext ih)
  | set state next ih => exact congrArg _ ih
  | call c next ih => exact congrArg _ (funext ih)

instance : LawfulMonad (Program I σ) :=
  LawfulMonad.mk' (Program I σ) bind_pure (fun _ _ => rfl) bind_assoc

end Program

/-- Issue a call and return its answer. -/
def issue (c : I β) : Program I σ β := .call c .pure

/-- The traces of a program, each with the state and the result it ends with: no
result when the last call issued has not been answered. -/
inductive Exec : Program I σ α → σ → List (Event I) → σ → Option α → Prop
  | pure (value : α) (state : σ) : Exec (.pure value) state [] state (some value)
  | get {next : σ → Program I σ α} {state last : σ} {events : List (Event I)} {result : Option α}
      (rest : Exec (next state) state events last result) :
      Exec (.get next) state events last result
  | set {next : Program I σ α} {state state' last : σ} {events : List (Event I)}
      {result : Option α} (rest : Exec next state' events last result) :
      Exec (.set state' next) state events last result
  | waiting {β : Type} {c : I β} {next : β → Program I σ α} {state : σ} :
      Exec (.call c next) state [.issued c] state none
  | answered {β : Type} {c : I β} {next : β → Program I σ α} {state last : σ}
      {events : List (Event I)} {result : Option α} (answer : β)
      (rest : Exec (next answer) state events last result) :
      Exec (.call c next) state (.issued c :: .answered c answer :: events) last result

section Exec
variable {f : α → Program I σ β} {state last : σ} {events : List (Event I)} {result : Option β}

@[simp] theorem exec_get_bind {f : σ → Program I σ β} :
    Exec (get >>= f) state events last result ↔ Exec (f state) state events last result :=
  ⟨fun h => by cases h; assumption, .get⟩

@[simp] theorem exec_modify_bind {f : PUnit → Program I σ β} {g : σ → σ} :
    Exec (modify g >>= f) state events last result ↔ Exec (f ()) (g state) events last result :=
  ⟨fun h => by cases h with | get h => cases h; assumption, fun h => .get (.set h)⟩

@[simp] theorem exec_pure {value : β} :
    Exec (pure value : Program I σ β) state events last result ↔
      events = [] ∧ last = state ∧ result = some value := by
  constructor
  · intro h
    cases h
    exact ⟨rfl, rfl, rfl⟩
  · rintro ⟨rfl, rfl, rfl⟩
    exact .pure value _

@[simp] theorem exec_issue_bind {c : I α} {answer : α} :
    Exec (issue c >>= f) state (.issued c :: .answered c answer :: events) last result ↔
      Exec (f answer) state events last result :=
  ⟨fun h => by cases h; assumption, .answered answer⟩
end Exec

/-- A trace of a sequence is one of its first part, or one of each. -/
theorem Exec.of_bind {p : Program I σ α} {f : α → Program I σ β} {state last : σ}
    {events : List (Event I)} {result : Option β} (hexec : Exec (p >>= f) state events last result) :
    (result = none ∧ Exec p state events last none) ∨
      ∃ value mid first rest, Exec p state first mid (some value) ∧
        Exec (f value) mid rest last result ∧ events = first ++ rest := by
  change Exec (p.bind f) state events last result at hexec
  induction p generalizing state events with
  | pure value => exact .inr ⟨value, state, [], events, .pure value state, hexec, rfl⟩
  | get next ih =>
    cases hexec with
    | get hexec =>
      rcases ih state hexec with ⟨rfl, hp⟩ | ⟨value, mid, first, rest, hp, hf, rfl⟩
      · exact .inl ⟨rfl, .get hp⟩
      · exact .inr ⟨value, mid, first, rest, .get hp, hf, rfl⟩
  | set state' next ih =>
    cases hexec with
    | set hexec =>
      rcases ih hexec with ⟨rfl, hp⟩ | ⟨value, mid, first, rest, hp, hf, rfl⟩
      · exact .inl ⟨rfl, .set hp⟩
      · exact .inr ⟨value, mid, first, rest, .set hp, hf, rfl⟩
  | call c next ih =>
    cases hexec with
    | waiting => exact .inl ⟨rfl, .waiting⟩
    | answered answer hexec =>
      rcases ih answer hexec with ⟨rfl, hp⟩ | ⟨value, mid, first, rest, hp, hf, rfl⟩
      · exact .inl ⟨rfl, .answered answer hp⟩
      · exact .inr ⟨value, mid, _, rest, .answered answer hp, hf, rfl⟩

/-- An answer follows the call it answers. -/
theorem Exec.issued_of_answered {p : Program I σ α} {state last : σ} {events : List (Event I)}
    {result : Option α} (hexec : Exec p state events last result) {c : I β} {answer : β}
    (h : .answered c answer ∈ events) : .issued c ∈ events := by
  induction hexec with
  | pure => cases h
  | get _ ih => exact ih h
  | set _ ih => exact ih h
  | waiting => simp at h
  | answered answer' _ ih =>
    simp only [List.mem_cons, reduceCtorEq, false_or] at h ⊢
    rcases h with h | h
    · cases h
      exact Or.inl rfl
    · exact Or.inr (ih h)

/-- An automaton that reads a trace, and what it demands of every call issued. -/
structure Monitor (I : Interface) (σ : Type) (M : Type*) where
  issued {β : Type} : M → I β → M := fun m _ => m
  answered {β : Type} : M → I β → β → M := fun m _ _ => m
  safe {β : Type} : σ → M → I β → Prop := fun _ _ _ => True

def Monitor.observe (mon : Monitor I σ M) (m : M) : Event I → M
  | .issued c => mon.issued m c
  | .answered c answer => mon.answered m c answer

section Wp
variable (mon : Monitor I σ M)

/-- From this state of the program and the monitor, every call the program issues
is safe and every result satisfies `post`. -/
def wp (post : α → σ → M → Prop) : Program I σ α → σ → M → Prop
  | .pure value, state, m => post value state m
  | .get next, state, m => wp post (next state) state m
  | .set state next, _, m => wp post next state m
  | .call c next, state, m => mon.safe state m c ∧
      ∀ answer, wp post (next answer) state
        (mon.answered (mon.issued m c) c answer)

variable {mon} {post : α → σ → M → Prop} {state : σ} {m : M}

@[simp] theorem wp_pure {value : α} :
    wp mon post (pure value : Program I σ α) state m ↔ post value state m := Iff.rfl

@[simp] theorem wp_get {post : σ → σ → M → Prop} :
    wp mon post (get : Program I σ σ) state m ↔ post state state m := Iff.rfl

@[simp] theorem wp_set {post : PUnit → σ → M → Prop} {state' : σ} :
    wp mon post (set state' : Program I σ PUnit) state m ↔ post () state' m := Iff.rfl

@[simp] theorem wp_modify {post : PUnit → σ → M → Prop} {f : σ → σ} :
    wp mon post (modify f : Program I σ PUnit) state m ↔ post () (f state) m := Iff.rfl

@[simp] theorem wp_issue {c : I α} :
    wp mon post (issue c : Program I σ α) state m ↔ mon.safe state m c ∧
      ∀ answer, post answer state
        (mon.answered (mon.issued m c) c answer) := Iff.rfl

@[simp] theorem wp_bind {p : Program I σ α} {f : α → Program I σ β} {post : β → σ → M → Prop} :
    wp mon post (p >>= f) state m ↔
      wp mon (fun value state m => wp mon post (f value) state m) p state m := by
  change wp mon post (p.bind f) state m ↔ _
  induction p generalizing state m with
  | pure value => rfl
  | get next ih => exact ih state
  | set state' next ih => exact ih
  | call c next ih => exact and_congr Iff.rfl (forall_congr' fun answer => ih answer)

@[simp] theorem wp_map {p : Program I σ α} {f : α → β} {post : β → σ → M → Prop} :
    wp mon post (f <$> p) state m ↔ wp mon (fun value => post (f value)) p state m :=
  wp_bind (f := fun value => pure (f value))

@[simp] theorem wp_ite {c : Prop} [Decidable c] {p q : Program I σ α} :
    wp mon post (if c then p else q) state m ↔
      (c → wp mon post p state m) ∧ (¬c → wp mon post q state m) := by
  by_cases h : c
  · simp [h]
  · simp [h]

@[simp] theorem wp_dite {c : Prop} [Decidable c] {p : c → Program I σ α}
    {q : ¬c → Program I σ α} :
    wp mon post (if h : c then p h else q h) state m ↔
      (∀ h : c, wp mon post (p h) state m) ∧ (∀ h : ¬c, wp mon post (q h) state m) := by
  by_cases h : c
  · simp [h]
  · simp [h]

theorem wp_mono {p : Program I σ α} {post' : α → σ → M → Prop}
    (himp : ∀ value state m, post value state m → post' value state m)
    (h : wp mon post p state m) : wp mon post' p state m := by
  induction p generalizing state m with
  | pure value => exact himp value state m h
  | get next ih => exact ih state h
  | set state' next ih => exact ih h
  | call c next ih => exact ⟨h.1, fun answer => ih answer (h.2 answer)⟩

/-- What is known of the results without a monitor is known of them with any. -/
theorem wp_returns {p : Program I σ α} {returns : α → σ → Prop}
    (hreturns : wp ({} : Monitor I σ Unit) (fun value last _ => returns value last) p state ())
    (h : wp mon post p state m) :
    wp mon (fun value last m => returns value last ∧ post value last m) p state m := by
  induction p generalizing state m with
  | pure value => exact ⟨hreturns, h⟩
  | get next ih => exact ih state hreturns h
  | set state' next ih => exact ih hreturns h
  | call c next ih => exact ⟨h.1, fun answer => ih answer (hreturns.2 answer) (h.2 answer)⟩

/-- A result of a run satisfies the postcondition. -/
theorem Exec.returned {p : Program I σ α} {events : List (Event I)} {last : σ} {value : α}
    (hexec : Exec p state events last (some value)) (h : wp mon post p state m) :
    post value last (events.foldl mon.observe m) := by
  generalize hresult : some value = result at hexec
  induction hexec generalizing m with
  | pure =>
    cases hresult
    exact h
  | get _ ih => exact ih h hresult
  | set _ ih => exact ih h hresult
  | waiting => cases hresult
  | answered answer _ ih => exact ih (h.2 answer) hresult

/-- Every call of a trace was safe, in some state of the program, when it was issued. -/
def Monitor.Accepts (mon : Monitor I σ M) : M → List (Event I) → Prop
  | _, [] => True
  | m, .issued c :: events =>
      (∃ current, mon.safe current m c) ∧ mon.Accepts (mon.issued m c) events
  | m, .answered c answer :: events => mon.Accepts (mon.answered m c answer) events

/-- What acceptance says of one call of the trace. -/
theorem Monitor.Accepts.issued {before after : List (Event I)} {β : Type} {c : I β}
    (h : mon.Accepts m (before ++ .issued c :: after)) :
    ∃ current, mon.safe current (before.foldl mon.observe m) c := by
  induction before generalizing m with
  | nil => exact h.1
  | cons event before ih =>
    cases event with
    | issued c' => exact ih h.2
    | answered c' answer => exact ih h

theorem Exec.accepts {p : Program I σ α} {events : List (Event I)} {last : σ} {result : Option α}
    (hexec : Exec p state events last result) (h : wp mon post p state m) :
    mon.Accepts m events := by
  induction hexec generalizing m with
  | pure => trivial
  | get _ ih => exact ih h
  | set _ ih => exact ih h
  | @waiting _ _ _ current => exact ⟨⟨current, h.1⟩, trivial⟩
  | @answered _ _ _ current _ _ _ answer _ ih => exact ⟨⟨current, h.1⟩, ih (h.2 answer)⟩

/-- A call of a trace was safe when it was issued. -/
theorem Exec.issued_safe {p : Program I σ α} {events : List (Event I)} {last : σ}
    {result : Option α} (hexec : Exec p state events last result) (h : wp mon post p state m)
    {β : Type} {c : I β} (hc : .issued c ∈ events) :
    ∃ (current : σ) (before : List (Event I)),
      mon.safe current (before.foldl mon.observe m) c := by
  obtain ⟨before, after, rfl⟩ := List.append_of_mem hc
  obtain ⟨current, hsafe⟩ := (hexec.accepts h).issued
  exact ⟨current, before, hsafe⟩

/-- A run that waits stands at a call that is safe in the state it waits in. -/
theorem Exec.waiting_safe {p : Program I σ α} {events : List (Event I)} {last : σ}
    (hexec : Exec p state events last none) (h : wp mon post p state m) :
    ∃ before, ∃ (β : Type) (c : I β), events = before ++ [.issued c] ∧ mon.safe last (before.foldl mon.observe m) c := by
  generalize hresult : (none : Option α) = result at hexec
  induction hexec generalizing m with
  | pure => cases hresult
  | get _ ih => exact ih h hresult
  | set _ ih => exact ih h hresult
  | @waiting β c _ current => exact ⟨[], β, c, rfl, h.1⟩
  | @answered _ c _ _ _ _ _ answer _ ih =>
    obtain ⟨before, β, c', rfl, hsafe⟩ := ih (h.2 answer) hresult
    exact ⟨.issued c :: .answered c answer :: before, β, c', rfl, hsafe⟩

end Wp

section Frame

/-- Every call the program can issue is allowed, and every state it sets satisfies
`keeps` when the states it reads do. -/
def Program.Within (allowed : {β : Type} → I β → Prop) (keeps : σ → Prop) :
    Program I σ α → Prop
  | .pure _ => True
  | .get next => ∀ state, keeps state → (next state).Within allowed keeps
  | .set state next => keeps state ∧ next.Within allowed keeps
  | .call c next => allowed c ∧ ∀ answer, (next answer).Within allowed keeps

namespace Program.Within
variable {allowed : {β : Type} → I β → Prop} {keeps : σ → Prop}

theorem value (a : α) : (Pure.pure a : Program I σ α).Within allowed keeps := trivial

theorem issue {c : I α} (h : allowed c) :
    (Interaction.issue c : Program I σ α).Within allowed keeps := ⟨h, fun _ => trivial⟩

theorem bind {p : Program I σ α} {f : α → Program I σ β} (hp : p.Within allowed keeps)
    (hf : ∀ a, (f a).Within allowed keeps) : (p >>= f).Within allowed keeps := by
  change (p.bind f).Within allowed keeps
  induction p with
  | pure value => exact hf value
  | get next ih => exact fun state hstate => ih state (hp state hstate)
  | set state next ih => exact ⟨hp.1, ih hp.2⟩
  | call c next ih => exact ⟨hp.1, fun answer => ih answer (hp.2 answer)⟩

theorem get_bind {f : σ → Program I σ α} (h : ∀ state, keeps state → (f state).Within allowed keeps) :
    ((MonadState.get : Program I σ σ) >>= f).Within allowed keeps := h

theorem update {f : σ → σ} (h : ∀ state, keeps state → keeps (f state)) :
    (modify f : Program I σ PUnit).Within allowed keeps :=
  fun state hstate => ⟨h state hstate, trivial⟩

theorem put {state : σ} (h : keeps state) :
    (MonadStateOf.set state : Program I σ PUnit).Within allowed keeps := ⟨h, trivial⟩

theorem mono {allowed' : {β : Type} → I β → Prop} {p : Program I σ α}
    (h : p.Within allowed keeps) (hallowed : ∀ {β : Type} (c : I β), allowed c → allowed' c) :
    p.Within allowed' keeps := by
  induction p with
  | pure value => trivial
  | get next ih => exact fun state hstate => ih state (h state hstate)
  | set state next ih => exact ⟨h.1, ih h.2⟩
  | call c next ih => exact ⟨hallowed c h.1, fun answer => ih answer (h.2 answer)⟩

section Exec
variable {p : Program I σ α} {state last : σ} {events : List (Event I)} {result : Option α}

theorem kept (h : p.Within allowed keeps) (hexec : Exec p state events last result)
    (hstate : keeps state) : keeps last := by
  induction hexec with
  | pure => exact hstate
  | @get _ current _ _ _ _ ih => exact ih (h current hstate) hstate
  | set _ ih => exact ih h.2 h.1
  | waiting => exact hstate
  | answered answer _ ih => exact ih (h.2 answer) hstate

theorem issued (h : p.Within allowed keeps) (hexec : Exec p state events last result)
    (hstate : keeps state) {β : Type} {c : I β} (hc : .issued c ∈ events) : allowed c := by
  induction hexec with
  | pure => cases hc
  | @get _ current _ _ _ _ ih => exact ih (h current hstate) hstate hc
  | set _ ih => exact ih h.2 h.1 hc
  | waiting =>
    cases List.mem_singleton.mp hc
    exact h.1
  | answered answer _ ih =>
    rcases List.mem_cons.mp hc with hc | hc
    · cases hc
      exact h.1
    · exact ih (h.2 answer) hstate ((List.mem_cons.mp hc).resolve_left (by simp))

end Exec

end Program.Within

/-- The frame rule: what a monitor knows is kept by a program whose calls all keep it, in the
states that the program goes through. -/
theorem Program.Within.framed {mon : Monitor I σ M} {allowed : {β : Type} → I β → Prop}
    {keeps : σ → Prop} {knows : M → Prop} {p : Program I σ α} {post : α → σ → M → Prop}
    {state : σ} {m : M} (h : p.Within allowed keeps)
    (hsafe : ∀ {β : Type} (current : σ) (m : M) (c : I β), keeps current → allowed c → knows m →
      mon.safe current m c)
    (hknows : ∀ {β : Type} (c : I β) (answer : β) (m : M), allowed c → knows m →
      knows (mon.answered (mon.issued m c) c answer))
    (hstate : keeps state) (hm : knows m)
    (hpost : ∀ value last m, keeps last → knows m → post value last m) :
    Interaction.wp mon post p state m := by
  induction p generalizing state m with
  | pure value => exact hpost value state m hstate hm
  | get next ih => exact ih state (h state hstate) hstate hm
  | set state' next ih => exact ih h.2 h.1 hm
  | call c next ih =>
    exact ⟨hsafe state m c hstate h.1 hm,
      fun answer => ih answer (h.2 answer) hstate (hknows c answer m h.1 hm)⟩

/-- The frame rule for a monitor that does not look at the state. -/
theorem Program.Within.wp {mon : Monitor I σ M} {allowed : {β : Type} → I β → Prop}
    {keeps : σ → Prop} {knows : M → Prop} {p : Program I σ α} {post : α → σ → M → Prop}
    {state : σ} {m : M} (h : p.Within allowed keeps)
    (hsafe : ∀ {β : Type} (current : σ) (m : M) (c : I β), allowed c → knows m →
      mon.safe current m c)
    (hknows : ∀ {β : Type} (c : I β) (answer : β) (m : M), allowed c → knows m →
      knows (mon.answered (mon.issued m c) c answer))
    (hstate : keeps state) (hm : knows m)
    (hpost : ∀ value last m, keeps last → knows m → post value last m) :
    Interaction.wp mon post p state m :=
  h.framed (fun current m c _ => hsafe current m c) hknows hstate hm hpost

/-- A program that is within a frame also keeps it. -/
theorem Program.Within.wp_kept {mon : Monitor I σ M} {allowed : {β : Type} → I β → Prop}
    {keeps : σ → Prop} {p : Program I σ α} {post : α → σ → M → Prop} {state : σ} {m : M}
    (h : p.Within allowed keeps) (hstate : keeps state) (hwp : Interaction.wp mon post p state m) :
    Interaction.wp mon (fun value last m => keeps last ∧ post value last m) p state m := by
  induction p generalizing state m with
  | pure value => exact ⟨hstate, hwp⟩
  | get next ih => exact ih state (h state hstate) hstate hwp
  | set state' next ih => exact ih h.2 h.1 hwp
  | call c next ih => exact ⟨hwp.1, fun answer => ih answer (h.2 answer) hstate (hwp.2 answer)⟩

/-- The frame rule for a monitor that only looks at the states in which calls are issued. -/
theorem Program.Within.watched {mon : Monitor I σ M} {allowed : {β : Type} → I β → Prop}
    {keeps : σ → Prop} {p : Program I σ α} {post : α → σ → M → Prop} {state : σ} {m : M}
    (h : p.Within allowed keeps)
    (hsafe : ∀ {β : Type} (current : σ) (m : M) (c : I β), keeps current → mon.safe current m c)
    (hstate : keeps state) (hpost : ∀ value last m, keeps last → post value last m) :
    Interaction.wp mon post p state m := by
  induction p generalizing state m with
  | pure value => exact hpost value state m hstate
  | get next ih => exact ih state (h state hstate) hstate
  | set state' next ih => exact ih h.2 h.1
  | call c next ih =>
    exact ⟨hsafe state m c hstate, fun answer => ih answer (h.2 answer) hstate⟩

/-- The frame rule where what a monitor holds does not change at all. -/
theorem Program.Within.quiet {mon : Monitor I σ M} {allowed : {β : Type} → I β → Prop}
    {keeps : σ → Prop} {p : Program I σ α} {post : α → σ → M → Prop} {state : σ} {m : M}
    (h : p.Within allowed keeps)
    (hsafe : ∀ {β : Type} (current : σ) (c : I β), allowed c → mon.safe current m c)
    (hquiet : ∀ {β : Type} (c : I β) (answer : β), allowed c →
      mon.answered (mon.issued m c) c answer = m)
    (hstate : keeps state) (hpost : ∀ value last, keeps last → post value last m) :
    Interaction.wp mon post p state m := by
  have hknown : ∀ {β : Type} (current : σ) (m' : M) (c : I β), allowed c → m' = m →
      mon.safe current m' c := by
    rintro β current m' c hc rfl
    exact hsafe current c hc
  refine h.wp hknown ?_ hstate rfl ?_
  · rintro β c answer m' hc rfl
    exact hquiet c answer hc
  · rintro value last m' hlast rfl
    exact hpost value last hlast

/-- A program that does not change its state, without a monitor. -/
theorem Program.Within.unmonitored {allowed : {β : Type} → I β → Prop} {p : Program I σ α}
    {state : σ} {post : α → σ → Unit → Prop} (h : p.Within allowed (state = ·))
    (hpost : ∀ value, post value state ()) :
    Interaction.wp ({} : Monitor I σ Unit) post p state () :=
  h.quiet (fun _ _ _ => trivial) (fun _ _ _ => rfl) rfl fun value _ hlast => hlast ▸ hpost value

end Frame

section Tape

/-- The monitor that keeps the events. -/
def tape : Monitor I σ (List (Event I)) where
  issued events c := events ++ [.issued c]
  answered events c answer := events ++ [.answered c answer]

@[simp] theorem wp_tape_issue {c : I α} {post : α → σ → List (Event I) → Prop} {state : σ}
    {events : List (Event I)} :
    wp tape post (issue c : Program I σ α) state events ↔
      ∀ answer, post answer state (events ++ [.issued c, .answered c answer]) := by
  simp [tape, List.append_assoc]

theorem foldl_tape (earlier events : List (Event I)) :
    events.foldl (tape : Monitor I σ _).observe earlier = earlier ++ events := by
  induction events generalizing earlier with
  | nil => simp
  | cons event events ih =>
    have hobserve : (tape : Monitor I σ _).observe earlier event = earlier ++ [event] := by
      cases event with
      | issued c => rfl
      | answered c answer => rfl
    rw [List.foldl_cons, hobserve, ih, List.append_assoc, List.singleton_append]

/-- What a program leaves on the tape of a run that returned. -/
theorem Exec.taped {p : Program I σ α} {state last : σ} {events : List (Event I)} {value : α}
    {post : α → σ → List (Event I) → Prop} (hexec : Exec p state events last (some value))
    (h : wp tape post p state []) : post value last events := by
  have hpost := hexec.returned h
  rwa [foldl_tape] at hpost

/-- A program leaves the same on a tape with earlier events. -/
theorem wp_tape_append {p : Program I σ α} {post : α → σ → List (Event I) → Prop} {state : σ}
    {events : List (Event I)} (earlier : List (Event I)) (h : wp tape post p state events) :
    wp tape (fun value last all => ∃ later, all = earlier ++ later ∧ post value last later) p state
      (earlier ++ events) := by
  induction p generalizing state events with
  | pure value => exact ⟨events, rfl, h⟩
  | get next ih => exact ih state h
  | set state' next ih => exact ih h
  | call c next ih =>
    refine ⟨trivial, fun answer => ?_⟩
    have hnext := ih answer (h.2 answer)
    simp only [tape, ← List.append_assoc] at hnext ⊢
    exact hnext

/-- What a program leaves on an empty tape follows the earlier events on another. -/
theorem wp_tape_from {p : Program I σ α} {post post' : α → σ → List (Event I) → Prop} {state : σ}
    {earlier : List (Event I)} (h : wp tape post p state [])
    (hpost : ∀ value last later, post value last later → post' value last (earlier ++ later)) :
    wp tape post' p state earlier := by
  have hshifted := wp_tape_append earlier h
  rw [List.append_nil] at hshifted
  refine wp_mono ?_ hshifted
  rintro value last _ ⟨later, rfl, hlater⟩
  exact hpost value last later hlater

/-- A program leaves the events of one of its traces. -/
theorem wp_tape_exec (p : Program I σ α) (state : σ) :
    wp tape (fun value last events => Exec p state events last (some value)) p state [] := by
  induction p generalizing state with
  | pure value => exact .pure value state
  | get next ih => exact wp_mono (fun _ _ _ h => .get h) (ih state state)
  | set state' next ih => exact wp_mono (fun _ _ _ h => .set h) (ih state')
  | call c next ih =>
    refine ⟨trivial, fun answer => ?_⟩
    exact wp_tape_from (ih answer state) fun _ _ _ h => .answered answer h

/-- After a program has run, the tape holds the events of one of its traces. -/
theorem wp_tape_bind {p : Program I σ α} {f : α → Program I σ β}
    {post : β → σ → List (Event I) → Prop} {state : σ} {earlier : List (Event I)}
    (h : ∀ value last events, Exec p state events last (some value) →
      wp tape post (f value) last (earlier ++ events)) :
    wp tape post (p >>= f) state earlier := by
  rw [wp_bind]
  exact wp_tape_from (wp_tape_exec p state) h

/-- The frame rule for the tape: what later events do not undo is kept. -/
theorem Program.Within.tape {allowed : {β : Type} → I β → Prop} {keeps : σ → Prop}
    {knows : List (Event I) → Prop} {p : Program I σ α} {post : α → σ → List (Event I) → Prop}
    {state : σ} {events : List (Event I)} (h : p.Within allowed keeps)
    (hknows : ∀ events later, knows events → knows (events ++ later)) (hstate : keeps state)
    (hevents : knows events)
    (hpost : ∀ value last events, keeps last → knows events → post value last events) :
    Interaction.wp Interaction.tape post p state events :=
  h.wp (fun _ _ _ _ _ => trivial)
    (fun c answer events _ hm => hknows _ [.answered c answer] (hknows events [.issued c] hm))
    hstate hevents hpost

/-- The tape, with a demand on the events before each call. -/
def recording (demands : List (Event I) → {β : Type} → I β → Prop) :
    Monitor I σ (List (Event I)) where
  issued events c := events ++ [.issued c]
  answered events c answer := events ++ [.answered c answer]
  safe _ events c := demands events c

section Recording
variable {demands : List (Event I) → {β : Type} → I β → Prop} {state last : σ}
variable {earlier events : List (Event I)} {p : Program I σ α}

@[simp] theorem wp_recording_issue {c : I α} {post : α → σ → List (Event I) → Prop} :
    wp (recording demands) post (issue c : Program I σ α) state events ↔
      demands events c ∧ ∀ answer, post answer state (events ++ [.issued c, .answered c answer]) := by
  simp [recording, List.append_assoc]

theorem foldl_recording :
    events.foldl (recording demands : Monitor I σ _).observe earlier = earlier ++ events :=
  foldl_tape (σ := σ) earlier events

/-- What a program that has returned leaves. -/
theorem Exec.recorded {value : α} {post : α → σ → List (Event I) → Prop}
    (hexec : Exec p state events last (some value)) (h : wp (recording demands) post p state []) :
    post value last events := by
  have hpost := hexec.returned h
  rwa [foldl_recording] at hpost

/-- What held before a call of a trace. -/
theorem Exec.demanded {result : Option α} {post : α → σ → List (Event I) → Prop} {β : Type}
    {c : I β} {mid rest : List (Event I)} (hexec : Exec p state events last result)
    (h : wp (recording demands) post p state []) (hevents : events = mid ++ .issued c :: rest) :
    demands mid c := by
  have haccepts := hexec.accepts h
  rw [hevents] at haccepts
  obtain ⟨_, hdemands⟩ := haccepts.issued
  rwa [foldl_recording] at hdemands

/-- The rule for code whose calls demand nothing: what holds of its traces. -/
theorem Program.Within.recorded {allowed : {β : Type} → I β → Prop} {keeps : σ → Prop}
    {post : α → σ → List (Event I) → Prop} (h : p.Within allowed keeps)
    (hdemands : ∀ {β : Type} (c : I β), allowed c → ∀ events, demands events c)
    (hstate : keeps state)
    (hpost : ∀ value last events, Exec p state events last (some value) →
      post value last (earlier ++ events)) :
    Interaction.wp (recording demands) post p state earlier := by
  induction p generalizing state earlier with
  | pure value =>
    have hlast := hpost value state [] (.pure value state)
    rwa [List.append_nil] at hlast
  | get next ih =>
    exact ih state (h state hstate) hstate fun value last events hexec =>
      hpost value last events (.get hexec)
  | set state' next ih =>
    exact ih h.2 h.1 fun value last events hexec => hpost value last events (.set hexec)
  | call c next ih =>
    refine ⟨hdemands c h.1 earlier, fun answer => ih answer (h.2 answer) hstate ?_⟩
    intro value last events hexec
    have hlast := hpost value last _ (.answered answer hexec)
    simpa [recording, List.append_assoc] using hlast

end Recording

/-- The tape, with a demand on the events wherever the program may stop. -/
def stopping (stops : σ → List (Event I) → Prop) : Monitor I σ (List (Event I)) where
  issued events c := events ++ [.issued c]
  answered events c answer := events ++ [.answered c answer]
  safe current events c := stops current (events ++ [.issued c])

@[simp] theorem wp_stopping_issue {stops : σ → List (Event I) → Prop} {c : I α}
    {post : α → σ → List (Event I) → Prop} {state : σ} {events : List (Event I)} :
    wp (stopping stops) post (issue c : Program I σ α) state events ↔
      stops state (events ++ [.issued c]) ∧
        ∀ answer, post answer state (events ++ [.issued c, .answered c answer]) := by
  simp [stopping, List.append_assoc]

theorem foldl_stopping (stops : σ → List (Event I) → Prop) (earlier events : List (Event I)) :
    events.foldl (stopping stops).observe earlier = earlier ++ events :=
  foldl_tape (σ := σ) earlier events

/-- The events of a trace, whether it has returned or stands at a call. -/
theorem Exec.stopped {stops : σ → List (Event I) → Prop} {p : Program I σ α} {state last : σ}
    {events : List (Event I)} {result : Option α} {post : α → σ → List (Event I) → Prop}
    (hexec : Exec p state events last result) (h : wp (stopping stops) post p state []) :
    (∀ value, result = some value → post value last events) ∧ (result = none → stops last events) := by
  constructor
  · rintro value rfl
    have hpost := hexec.returned h
    rwa [foldl_stopping] at hpost
  · rintro rfl
    obtain ⟨before, β, c, rfl, hsafe⟩ := hexec.waiting_safe h
    rwa [foldl_stopping] at hsafe

/-- The rule for the traces of a program: what holds of each holds wherever it may stop. -/
theorem wp_stopping_exec {stops : σ → List (Event I) → Prop} {p : Program I σ α}
    {post : α → σ → List (Event I) → Prop} {state : σ} {earlier : List (Event I)}
    (hstop : ∀ last events, Exec p state events last none → stops last (earlier ++ events))
    (hpost : ∀ value last events, Exec p state events last (some value) →
      post value last (earlier ++ events)) :
    wp (stopping stops) post p state earlier := by
  induction p generalizing state earlier with
  | pure value =>
    have hlast := hpost value state [] (.pure value state)
    rwa [List.append_nil] at hlast
  | get next ih =>
    exact ih state (fun last events h => hstop last events (.get h))
      fun value last events h => hpost value last events (.get h)
  | set state' next ih =>
    exact ih (fun last events h => hstop last events (.set h))
      fun value last events h => hpost value last events (.set h)
  | call c next ih =>
    refine ⟨hstop state _ .waiting, fun answer => ih answer ?_ ?_⟩
    · intro last events h
      have hlast := hstop last _ (.answered answer h)
      simpa [stopping, List.append_assoc] using hlast
    · intro value last events h
      have hlast := hpost value last _ (.answered answer h)
      simpa [stopping, List.append_assoc] using hlast

theorem wp_stopping_bind {stops : σ → List (Event I) → Prop} {p : Program I σ α}
    {f : α → Program I σ β} {post : β → σ → List (Event I) → Prop} {state : σ}
    {earlier : List (Event I)}
    (hstop : ∀ last events, Exec p state events last none → stops last (earlier ++ events))
    (hnext : ∀ value last events, Exec p state events last (some value) →
      wp (stopping stops) post (f value) last (earlier ++ events)) :
    wp (stopping stops) post (p >>= f) state earlier := by
  rw [wp_bind]
  exact wp_stopping_exec hstop hnext

end Tape

section Single

/-- The events that issue a call of a kind. -/
def issues (kind : {β : Type} → I β → Bool) : Event I → Bool
  | .issued c => kind c
  | .answered _ _ => false

/-- The monitor that counts the calls of a kind and allows the first only. -/
def single (kind : {β : Type} → I β → Bool) (allowed : {β : Type} → I β → Prop) :
    Monitor I σ Nat where
  issued m c := m + (kind c).toNat
  safe _ m c := kind c → m = 0 ∧ allowed c

variable {kind : {β : Type} → I β → Bool} {allowed : {β : Type} → I β → Prop}

theorem single_count {m : Nat} {events : List (Event I)}
    (h : (single kind allowed : Monitor I σ Nat).Accepts m events) :
    events.countP (issues kind) + m ≤ max 1 m := by
  induction events generalizing m with
  | nil =>
    rw [List.countP_nil, Nat.zero_add]
    exact Nat.le_max_right 1 m
  | cons event events ih =>
    cases event with
    | answered c answer =>
      rw [List.countP_cons_of_neg (by simp [issues])]
      exact ih h
    | issued c =>
      obtain ⟨⟨_, hsafe⟩, hrest⟩ := h
      have hcount := ih hrest
      simp only [single] at hcount hsafe
      cases hc : kind c with
      | false =>
        rw [List.countP_cons_of_neg (by simp [issues, hc])]
        simpa [hc] using hcount
      | true =>
        rw [List.countP_cons_of_pos (by simp [issues, hc])]
        have hzero := (hsafe hc).1
        simp only [hc, Bool.toNat_true] at hcount
        omega

/-- A program whose calls are all of other kinds. -/
theorem Program.Within.single {other : {β : Type} → I β → Prop} {keeps : σ → Prop}
    {p : Program I σ α} {post : α → σ → Nat → Prop} {state : σ} {m : Nat}
    (h : p.Within other keeps) (hother : ∀ {β : Type} (c : I β), other c → kind c = false)
    (hstate : keeps state) (hpost : ∀ value last, keeps last → post value last m) :
    Interaction.wp (Interaction.single kind allowed) post p state m := by
  refine h.quiet ?_ ?_ hstate hpost
  · intro β current c hc hkind
    cases (hother c hc).symm.trans hkind
  · intro β c answer hc
    simp [Interaction.single, hother c hc]

end Single

section Play

/-- Run a program against a host given as a function of the number of events so far; `none`
leaves a call unanswered. -/
def play (host : {β : Type} → Nat → I β → Option β) :
    Nat → Program I σ α → σ → List (Event I) × σ × Option α
  | _, .pure value, state => ([], state, some value)
  | time, .get next, state => play host time (next state) state
  | time, .set state next, _ => play host time next state
  | time, .call c next, state =>
    match host time c with
    | none => ([.issued c], state, none)
    | some answer =>
      let rest := play host (time + 2) (next answer) state
      (.issued c :: .answered c answer :: rest.1, rest.2)

theorem exec_play (host : {β : Type} → Nat → I β → Option β) (time : Nat) (p : Program I σ α)
    (state : σ) : Exec p state (play host time p state).1 (play host time p state).2.1
      (play host time p state).2.2 := by
  induction p generalizing time state with
  | pure value => exact .pure value state
  | get next ih => exact .get (ih state time state)
  | set state' next ih => exact .set (ih time state')
  | call c next ih =>
    simp only [play]
    cases hanswer : host time c with
    | none => exact .waiting
    | some answer => exact .answered answer (ih answer (time + 2) state)

theorem play_answered {host : {β : Type} → Nat → I β → Option β} {time : Nat}
    {p : Program I σ α} {state : σ} {c : I β} {answer : β}
    (h : .answered c answer ∈ (play host time p state).1) : ∃ time', host time' c = some answer := by
  induction p generalizing time state with
  | pure value => cases h
  | get next ih => exact ih state h
  | set state' next ih => exact ih h
  | call c' next ih =>
    simp only [play] at h
    cases hanswer : host time c' with
    | none =>
      rw [hanswer] at h
      simp at h
    | some answer' =>
      rw [hanswer] at h
      simp only [List.mem_cons, reduceCtorEq, false_or] at h
      rcases h with h | h
      · cases h
        exact ⟨time, hanswer⟩
      · exact ih answer' h

/-- A host on which every call returns. -/
theorem play_isSome (host : {β : Type} → Nat → I β → β) (time : Nat) (p : Program I σ α)
    (state : σ) : (play (fun time c => some (host time c)) time p state).2.2.isSome := by
  induction p generalizing time state with
  | pure value => rfl
  | get next ih => exact ih state time state
  | set state' next ih => exact ih time state'
  | call c next ih => exact ih (host time c) (time + 2) state

/-- The second program does what the first one does, unless the first one returns a cut value. -/
inductive Program.Completes (cut : α → Prop) : Program I σ α → Program I σ α → Prop where
  | ends {value : α} {longer : Program I σ α} (h : cut value) : Completes cut (.pure value) longer
  | pure (value : α) : Completes cut (.pure value) (.pure value)
  | get {shorter longer : σ → Program I σ α} (h : ∀ state, Completes cut (shorter state) (longer state)) :
      Completes cut (.get shorter) (.get longer)
  | set (state : σ) {shorter longer : Program I σ α} (h : Completes cut shorter longer) :
      Completes cut (.set state shorter) (.set state longer)
  | call {β : Type} (c : I β) {shorter longer : β → Program I σ α}
      (h : ∀ answer, Completes cut (shorter answer) (longer answer)) :
      Completes cut (.call c shorter) (.call c longer)

namespace Program.Completes
variable {cut : α → Prop}

theorem refl (p : Program I σ α) : Completes cut p p := by
  induction p with
  | pure value => exact .pure value
  | get next ih => exact .get ih
  | set state next ih => exact .set state ih
  | call c next ih => exact .call c ih

theorem bind {shorter longer : β → Program I σ α} (p : Program I σ β)
    (h : ∀ value, Completes cut (shorter value) (longer value)) :
    Completes cut (p >>= shorter) (p >>= longer) := by
  induction p with
  | pure value => exact h value
  | get next ih => exact .get ih
  | set state next ih => exact .set state ih
  | call c next ih => exact .call c ih

/-- A run that has not been cut is the run of the longer program too. -/
theorem play_eq {host : {β : Type} → Nat → I β → Option β} {time : Nat}
    {shorter longer : Program I σ α} {state : σ} {value : α} (h : Completes cut shorter longer)
    (hresult : (play host time shorter state).2.2 = some value) (hvalue : ¬ cut value) :
    play host time longer state = play host time shorter state := by
  induction h generalizing time state with
  | ends hcut =>
    cases hresult
    exact absurd hcut hvalue
  | pure value => rfl
  | get _ ih => exact ih state hresult
  | set state' _ ih => exact ih hresult
  | call c _ ih =>
    simp only [play] at hresult ⊢
    cases hanswer : host time c with
    | none => rfl
    | some answer =>
      rw [hanswer] at hresult
      simp only [ih answer hresult]

/-- The events of the shorter program come first. -/
theorem play_isPrefix {host : {β : Type} → Nat → I β → Option β} {time : Nat}
    {shorter longer : Program I σ α} {state : σ} (h : Completes cut shorter longer) :
    (play host time shorter state).1 <+: (play host time longer state).1 := by
  induction h generalizing time state with
  | ends _ => exact List.nil_prefix
  | pure value => exact List.nil_prefix
  | get _ ih => exact ih state
  | set state' _ ih => exact ih
  | call c _ ih =>
    simp only [play]
    cases host time c with
    | none => exact List.prefix_rfl
    | some answer => exact (List.prefix_append_right_inj [_, _]).mpr (ih answer)

end Program.Completes

end Play

end Auntie.Interaction
