import Auntie.Source.Player.Entry
import Mathlib.Data.List.Induction

/-!
# What a failed deposit callback leads to

`ecall_get_deposits` hands `n + 1` deposit transactions to the host. An error of one
of the first `n` callbacks is returned and aborts the contract. An error of the last
one frees the output but is not returned: the contract goes on to `GOT_DEPOSITS`, and
the player confirms and settles without an output.
-/

namespace Auntie.Guarantees.DepositCallbacks
open Auntie.Source Auntie.Source.Player Auntie.Interaction

/-- What the log shows: whether it stands inside `ecall_get_deposits`, the clear-contract
message received there, and what the callbacks returned. -/
structure Observed where
  receiving : Bool
  accepted : Option ReceivedMessage
  results : List Int32

def acceptMessage (m : Observed) {β : Type} : Call Callback β → β → Option ReceivedMessage
  | .auntieMsgReceive _, answer =>
    match answer with
    | some msg => if m.receiving ∧ msg.msgType = msgClearContract then some msg else m.accepted
    | none => m.accepted
  | _, _ => m.accepted

def depositResult {β : Type} : Call Callback β → β → List Int32
  | .callback output, ret =>
    match output with
    | .ocallGetDeposits _ _ => [ret]
    | _ => []
  | _, _ => []

variable (dep : Deployment)

/-- The callback after the first `n`, if it comes to it, returns zero. -/
def LastSucceeds (results : List Int32) : Prop :=
  ∀ ret, results[dep.build.numPlayers]? = some ret → ret = 0

def observer : Observer (enclave dep) Observed where
  enter m op := { m with receiving :=
    match op with
    | .ecallGetDeposits _ => true
    | _ => false }
  host := {
    answered m c answer :=
      ⟨m.receiving, acceptMessage m c answer, m.results ++ depositResult c answer⟩
    safe _ m c :=
      match c with
      | .zcashSignTransaction _ _ _ => LastSucceeds dep m.results → ∀ ret ∈ m.results, ret = 0
      | _ => True }

/-- The output is the one of the message that was accepted. -/
def HoldsOutput (globals : Globals) (m : Observed) : Prop :=
  ∃ msg address, m.accepted = some msg ∧
    globals.functionalityOutput = some ⟨address, ClearContract.output dep.build.numPlayers msg⟩

/-- Before `ecall_get_deposits`. -/
def Early (state : State) : Prop :=
  state = .uninitialized ∨ state = .initialized ∨ state = .deposited

/-- After `ecall_get_deposits`, and neither refunded nor settled. -/
def Underway (state : State) : Prop := state = .gotDeposits ∨ state = .confirmedDeposits

/-- What the state of `entry.c` says about the callbacks and the output. -/
structure Consistent (globals : Globals) (m : Observed) : Prop where
  early : Early globals.state → m.results = [] ∧ globals.functionalityOutput = none
  output : globals.functionalityOutput.isSome → HoldsOutput dep globals m
  succeeded : LastSucceeds dep m.results → Underway globals.state →
    (∀ ret ∈ m.results, ret = 0) ∧ globals.functionalityOutput.isSome
  settled : LastSucceeds dep m.results → globals.state = .settled →
    globals.functionalityOutput.isSome

/-- A refunded player without an output does not settle. -/
def SettlesWithOutput (globals : Globals) : Ecall → Prop
  | .ecallSettle _ blocks => ∀ count,
    (Blocks.zcashAuthorizedAndBuried dep.crates dep.build globals.settlementTxid blocks).outcome =
      .returned count → chainError dep.build.settleDelayBlocks count = none →
    globals.state = .refunded → globals.functionalityOutput.isSome
  | _ => True

/-- What `ecall_get_deposits_impl` returns and leaves, from the results of the callbacks. -/
structure Reported (before : Globals) (ret : Int32) (last : Globals) (m : Observed) : Prop where
  failed : m.results.length ≤ dep.build.numPlayers →
    ret ≠ 0 ∧ (before.functionalityOutput = none → last.functionalityOutput = none)
  passed : dep.build.numPlayers < m.results.length → ret = 0 ∧
    ∃ result, m.results = List.replicate dep.build.numPlayers 0 ++ [result] ∧
      (result = 0 → HoldsOutput dep last m) ∧ (result ≠ 0 → last.functionalityOutput = none)

/-- A failed callback aborts the contract exactly when it is not the last one. -/
def ReactsTo (ret : Int32) (last : Globals) (m : Observed) : Prop :=
  ((∃ result ∈ m.results, result ≠ 0) → ret ≠ 0 ∧ last.state = .aborted) ↔
    LastSucceeds dep m.results

variable {dep} {globals : Globals} {m : Observed}

@[simp] theorem observer_issued {β : Type} (c : Call Callback β) :
    (observer dep).host.issued m c = m := rfl

@[simp] theorem observer_answered {β : Type} (c : Call Callback β) (answer : β) :
    (observer dep).host.answered m c answer =
      ⟨m.receiving, acceptMessage m c answer, m.results ++ depositResult c answer⟩ := rfl

/-- A step that leaves the output and the results alone. -/
theorem Consistent.moved {last : Globals} (h : Consistent dep globals m)
    (houtput : last.functionalityOutput = globals.functionalityOutput)
    (hearly : Early last.state → Early globals.state)
    (hunderway : Underway last.state → Underway globals.state)
    (hsettled : LastSucceeds dep m.results → last.state = .settled →
      globals.functionalityOutput.isSome) : Consistent dep last m where
  early hlast := by
    rw [houtput]
    exact h.early (hearly hlast)
  output hsome := by
    rw [houtput] at hsome
    obtain ⟨msg, address, hmsg, hbuffer⟩ := h.output hsome
    exact ⟨msg, address, hmsg, houtput.trans hbuffer⟩
  succeeded hlast hstate := by
    rw [houtput]
    exact h.succeeded hlast (hunderway hstate)
  settled hlast hstate := by
    rw [houtput]
    exact hsettled hlast hstate

section GetDeposits
variable {before last : Globals} {ret : Int32}

/-- The loop stops at the first callback that fails. -/
theorem outputDeposits_spec {context : Pointer} {msg : ReceivedMessage} (indices : List Nat)
    {post : Option Int32 → Globals → Observed → Prop}
    (hall : post none globals
      { m with results := m.results ++ List.replicate indices.length 0 })
    (hfail : ∀ ret, ret ≠ 0 → ∀ count < indices.length, post (some ret) globals
      { m with results := m.results ++ (List.replicate count 0 ++ [ret]) }) :
    wp (observer dep).host post (outputDeposits dep.build context msg indices) globals m := by
  induction indices generalizing m with
  | nil => simpa [outputDeposits] using hall
  | cons i rest ih =>
    simp only [outputDeposits, wp_bind, wp_ite, wp_issue, wp_pure, observer_issued,
      observer_answered, acceptMessage, depositResult]
    refine ⟨trivial, fun ret => ⟨fun hret => ?_, fun hret => ?_⟩⟩
    · exact hfail ret hret 0 (Nat.succ_pos _)
    · have hzero : ret = 0 := by simpa using hret
      subst hzero
      apply ih
      · simpa [List.replicate_succ] using hall
      · intro ret hret count hcount
        have hlater := hfail ret hret (count + 1) (Nat.succ_lt_succ hcount)
        simpa [List.replicate_succ] using hlater

theorem reported_early (hret : ret ≠ 0)
    (houtput : before.functionalityOutput = none → last.functionalityOutput = none)
    (hresults : m.results = []) : Reported dep before ret last m where
  failed _ := ⟨hret, houtput⟩
  passed h := by
    rw [hresults] at h
    exact absurd h (Nat.not_lt_zero _)

theorem outputAllDeposits_spec {context : Pointer} {msg : ReceivedMessage} {address : Pointer}
    (hresults : m.results = []) (haccepted : m.accepted = some msg)
    (houtput : globals.functionalityOutput =
      some ⟨address, ClearContract.output dep.build.numPlayers msg⟩) (output : Buffer) :
    wp (observer dep).host (Reported dep before)
      (outputAllDeposits dep.build context msg output) globals m := by
  simp only [outputAllDeposits, wp_bind]
  refine outputDeposits_spec _ ?_ ?_
  · simp only [wp_bind, wp_issue, wp_ite, wp_pure, dropOutput, wp_modify, observer_issued,
      observer_answered, acceptMessage, depositResult, List.append_nil, List.length_range,
      hresults, List.nil_append]
    refine ⟨trivial, fun result => ⟨trivial, fun _ => ⟨fun hresult => ?_, fun hresult => ?_⟩⟩⟩
    · refine ⟨trivial, fun _ => ⟨fun h => ?_, fun _ => ⟨rfl, result, rfl, ?_, ?_⟩⟩⟩
      · simp at h
      · exact fun hzero => absurd hzero hresult
      · exact fun _ => rfl
    · refine ⟨fun h => ?_, fun _ => ⟨rfl, result, rfl, ?_, ?_⟩⟩
      · simp at h
      · exact fun _ => ⟨msg, address, haccepted, houtput⟩
      · exact fun hne => absurd hne hresult
  · intro ret hret count hcount
    simp only [wp_bind, wp_issue, wp_pure, dropOutput, wp_modify, observer_issued,
      observer_answered, acceptMessage, depositResult, List.append_nil]
    rw [List.length_range] at hcount
    refine ⟨trivial, fun _ => ⟨trivial, fun _ => ⟨fun _ => ⟨hret, fun _ => rfl⟩, fun h => ?_⟩⟩⟩
    simp [hresults] at h
    omega

theorem ecallGetDepositsImpl_spec {context : Pointer} (hreceiving : m.receiving = true)
    (hresults : m.results = []) :
    wp (observer dep).host (Reported dep globals) (ecallGetDepositsImpl dep.build context)
      globals m := by
  simp only [ecallGetDepositsImpl, wp_bind, wp_get]
  cases globals.operator with
  | none => exact wp_deref_none.mpr trivial
  | some operator =>
    simp only [wp_deref_some, wp_issue, observer_issued, observer_answered, depositResult,
      List.append_nil]
    refine ⟨trivial, fun answer => ?_⟩
    cases answer with
    | none => exact reported_early (by decide) id hresults
    | some msg =>
      simp only [wp_bind, wp_ite, wp_issue, wp_pure, wp_modify, observer_issued,
        observer_answered, acceptMessage, depositResult, List.append_nil]
      refine ⟨fun _ => ⟨trivial, fun _ => reported_early (by decide) id hresults⟩,
        fun htype => ⟨trivial, fun address => ?_⟩⟩
      cases address with
      | none =>
        simp only [wp_bind, wp_issue, wp_pure, wp_modify, observer_issued, observer_answered,
          acceptMessage, depositResult, List.append_nil]
        exact ⟨trivial, fun _ => reported_early (by decide) (fun _ => rfl) hresults⟩
      | some address =>
        simp only [wp_bind, wp_modify]
        apply outputAllDeposits_spec
        · exact hresults
        · exact if_pos ⟨hreceiving, not_not.mp htype⟩
        · rfl

/-- The state is set from what was returned. -/
theorem ecallGetDeposits_reported {context : Pointer} (hreceiving : m.receiving = true)
    (hresults : m.results = []) (hstate : globals.state = .deposited) :
    wp (observer dep).host
      (fun ret last m => Reported dep globals ret last m ∧
        last.state = if ret ≠ 0 then .aborted else .gotDeposits)
      (ecallGetDeposits dep context) globals m := by
  simp only [ecallGetDeposits, setState, wp_bind, wp_get, wp_ite, wp_pure, wp_modify]
  refine ⟨fun hne => absurd hstate hne, fun _ => ?_⟩
  refine wp_mono ?_ (ecallGetDepositsImpl_spec hreceiving hresults)
  rintro ret last m' ⟨hfailed, hpassed⟩
  exact ⟨⟨hfailed, hpassed⟩, trivial⟩

theorem lastSucceeds_short {results : List Int32} (h : results.length ≤ dep.build.numPlayers) :
    LastSucceeds dep results := by
  intro ret hret
  rw [List.getElem?_eq_none h] at hret
  cases hret

theorem lastSucceeds_append (result : Int32) :
    LastSucceeds dep (List.replicate dep.build.numPlayers 0 ++ [result]) ↔ result = 0 := by
  simp [LastSucceeds]

theorem Reported.consistent (h : Reported dep before ret last m)
    (hbefore : before.functionalityOutput = none)
    (hstate : last.state = if ret ≠ 0 then .aborted else .gotDeposits) :
    Consistent dep last m := by
  by_cases hshort : m.results.length ≤ dep.build.numPlayers
  · obtain ⟨hret, hnone⟩ := h.failed hshort
    rw [if_pos hret] at hstate
    constructor
    all_goals simp [hstate, hnone hbefore, Early, Underway]
  · obtain ⟨rfl, result, hresults, hholds, hnone⟩ := h.passed (by omega)
    simp only [ne_eq, not_true_eq_false, if_false] at hstate
    have hlast : LastSucceeds dep m.results ↔ result = 0 := by
      rw [hresults]
      exact lastSucceeds_append result
    by_cases hresult : result = 0
    · obtain ⟨msg, address, hmsg, houtput⟩ := hholds hresult
      constructor
      · simp [hstate, Early]
      · exact fun _ => ⟨msg, address, hmsg, houtput⟩
      · intro _ _
        refine ⟨fun other hother => ?_, by rw [houtput]; rfl⟩
        rw [hresults, hresult, List.mem_append, List.mem_replicate, List.mem_singleton] at hother
        exact hother.elim And.right id
      · simp [hstate]
    · constructor
      all_goals simp [hstate, hnone hresult, hlast, hresult, Early]

theorem Reported.reactsTo (h : Reported dep before ret last m)
    (hstate : last.state = if ret ≠ 0 then .aborted else .gotDeposits) :
    ReactsTo dep ret last m := by
  by_cases hshort : m.results.length ≤ dep.build.numPlayers
  · obtain ⟨hret, -⟩ := h.failed hshort
    rw [if_pos hret] at hstate
    exact ⟨fun _ => lastSucceeds_short hshort, fun _ _ => ⟨hret, hstate⟩⟩
  · obtain ⟨rfl, result, hresults, -⟩ := h.passed (by omega)
    rw [ReactsTo, hresults, lastSucceeds_append]
    simp

end GetDeposits

section Ecalls

/-- An impl that outputs no deposit and signs nothing it should not. -/
theorem impl_spec {α : Type} {permits : Permits Callback} {keeps : Globals → Prop} {p : Code α}
    (h : p.Within (Call.Permitted permits) keeps)
    (hreceiving : m.receiving = false)
    (hdeposits : ∀ context transaction, ¬ permits.outputs (.ocallGetDeposits context transaction))
    (hsigns : permits.signs → LastSucceeds dep m.results → ∀ ret ∈ m.results, ret = 0)
    (hstate : keeps globals) {post : α → Globals → Observed → Prop}
    (hpost : ∀ value last, keeps last → post value last m) :
    wp (observer dep).host post p globals m := by
  refine h.quiet ?_ ?_ hstate hpost
  · intro β current c hc
    cases c with
    | zcashSignTransaction key advice sighash => exact hsigns hc
    | _ => trivial
  · intro β c answer hc
    cases c with
    | callback output =>
      cases output with
      | ocallGetDeposits context transaction => exact absurd hc (hdeposits context transaction)
      | _ => simp [acceptMessage, depositResult]
    | auntieMsgReceive channel =>
      cases answer with
      | none => simp [acceptMessage, depositResult]
      | some msg =>
        simp only [observer_issued, observer_answered, acceptMessage, depositResult, hreceiving,
          List.append_nil, Bool.false_eq_true, false_and, if_false]
        rw [← hreceiving]
    | _ => simp [acceptMessage, depositResult]

variable (h : Consistent dep globals m) (hreceiving : m.receiving = false)
include h hreceiving

theorem ecallConnectToOperator_spec (context : Pointer) (playerId : Nat) :
    wp (observer dep).host (fun _ last m => Consistent dep last m)
      (ecallConnectToOperator dep context playerId) globals m := by
  refine impl_spec (ecallConnectToOperatorImpl_permitted _ _ _) hreceiving (by simp) (by simp)
    ⟨_, _, rfl⟩ ?_
  rintro ret _ ⟨operator, stash, rfl⟩
  exact h.moved rfl id id h.settled

theorem ecallInitialize_spec (context : Pointer) :
    wp (observer dep).host (fun _ last m => Consistent dep last m)
      (ecallInitialize context) globals m := by
  simp only [ecallInitialize, setState, wp_bind, wp_get, wp_ite, wp_pure, wp_modify]
  refine ⟨fun _ => h, fun hstate => ?_⟩
  refine impl_spec (ecallInitializeImpl_within _) hreceiving (by simp) (by simp) ⟨_, _, rfl⟩ ?_
  rintro ret _ ⟨depositWallet, payoutWallet, rfl⟩
  refine ⟨fun _ => ?_, fun _ => h.moved rfl id id h.settled⟩
  exact h.moved rfl (fun _ => .inl (not_not.mp hstate)) (by simp [Underway]) (by simp)

theorem ecallDepositAndInput_spec (depositTransaction input : Bytes) :
    wp (observer dep).host (fun _ last m => Consistent dep last m)
      (ecallDepositAndInput dep depositTransaction input) globals m := by
  simp only [ecallDepositAndInput, setState, wp_bind, wp_get, wp_ite, wp_pure, wp_modify]
  refine ⟨fun _ => h, fun hstate => ?_⟩
  refine impl_spec (ecallDepositAndInputImpl_within _ _ _) hreceiving (by simp) (by simp)
    ⟨_, rfl⟩ ?_
  rintro ret _ ⟨depositAdvice, rfl⟩
  have hearly : Early globals.state := .inr (.inl (not_not.mp hstate))
  by_cases hret : ret = 0
  · exact h.moved rfl (fun _ => hearly) (by simp [hret, Underway]) (by simp [hret])
  · exact h.moved rfl (fun _ => hearly) (by simp [hret, Underway]) (by simp [hret])

theorem ecallConfirmDeposits_spec :
    wp (observer dep).host (fun _ last m => Consistent dep last m)
      ecallConfirmDeposits globals m := by
  simp only [ecallConfirmDeposits, setState, wp_bind, wp_get, wp_ite, wp_pure, wp_modify]
  refine ⟨fun _ => h, fun hstate => ?_⟩
  have hunderway : Underway globals.state := .inl (not_not.mp hstate)
  refine impl_spec ecallConfirmDepositsImpl_permitted hreceiving (by simp)
    (fun _ hlast => (h.succeeded hlast hunderway).1) ⟨_, rfl⟩ ?_
  rintro ret _ ⟨depositAdvice, rfl⟩
  by_cases hret : ret = 0
  · exact h.moved rfl (by simp [hret, Early]) (fun _ => hunderway) (by simp [hret])
  · exact h.moved rfl (by simp [hret, Early]) (fun _ => hunderway) (by simp [hret])

/-- A settlement that goes through holds the output: it was confirmed, or refunded with it. -/
theorem ecallSettle_spec (context : Pointer) (blocks : Bytes)
    (hsettles : SettlesWithOutput dep globals (.ecallSettle context blocks)) :
    wp (observer dep).host (fun _ last m => Consistent dep last m)
      (ecallSettle dep context blocks) globals m := by
  simp only [ecallSettle, setState, wp_bind, wp_get, wp_ite, wp_pure, wp_modify]
  refine ⟨fun _ => h, fun hstate => ?_⟩
  by_cases hpasses : ∃ count, (Blocks.zcashAuthorizedAndBuried dep.crates dep.build
      globals.settlementTxid blocks).outcome = .returned count ∧
      chainError dep.build.settleDelayBlocks count = none
  · refine impl_spec (ecallSettleImpl_within _ _) hreceiving (by simp) (by simp) rfl ?_
    rintro ret _ rfl
    refine ⟨fun _ => h.moved rfl (by simp [Early]) (by simp [Underway]) fun hlast _ => ?_, fun _ => h⟩
    by_cases hconfirmed : globals.state = .confirmedDeposits
    · exact (h.succeeded hlast (.inr hconfirmed)).2
    · obtain ⟨count, houtcome, hchain⟩ := hpasses
      exact hsettles count houtcome hchain (by_contra fun hne => hstate ⟨hconfirmed, hne⟩)
  · refine ecallSettleImpl_refused (fun count houtcome hchain =>
      hpasses ⟨count, houtcome, hchain⟩) trivial fun error herror => ?_
    exact ⟨fun hzero => absurd hzero herror, fun _ => h⟩

theorem ecallRefund_spec (context : Pointer) (blocks : Bytes) :
    wp (observer dep).host (fun _ last m => Consistent dep last m)
      (ecallRefund dep context blocks) globals m := by
  simp only [ecallRefund, setState, wp_bind, wp_get, wp_ite, wp_pure, wp_modify]
  refine ⟨fun _ => h, fun hstate => ?_⟩
  refine impl_spec (ecallRefundImpl_within _ _) hreceiving (by simp) (by simp) rfl ?_
  rintro ret _ rfl
  exact ⟨fun _ => h.moved rfl (by simp [Early]) (by simp [Underway]) (by simp), fun _ => h⟩

end Ecalls

theorem ecallGetDeposits_spec {context : Pointer} (h : Consistent dep globals m)
    (hreceiving : m.receiving = true) :
    wp (observer dep).host (fun _ last m => Consistent dep last m)
      (ecallGetDeposits dep context) globals m := by
  by_cases hstate : globals.state = .deposited
  · obtain ⟨hresults, houtput⟩ := h.early (.inr (.inr hstate))
    exact wp_mono (fun _ _ _ hreported => hreported.1.consistent houtput hreported.2)
      (ecallGetDeposits_reported hreceiving hresults hstate)
  · simp only [ecallGetDeposits, wp_bind, wp_get, wp_ite, wp_pure]
    exact ⟨fun _ => h, fun hnot => absurd (not_not.mp hnot) hstate⟩

theorem handle_preserves (op : Ecall) (hsettles : SettlesWithOutput dep globals op)
    (h : Consistent dep globals m) :
    (observer dep).Preserves (Consistent dep) op globals m := by
  have hentered (receiving : Bool) : Consistent dep globals { m with receiving := receiving } :=
    ⟨h.early, h.output, h.succeeded, h.settled⟩
  cases op with
  | ecallConnectToOperator context playerId =>
    exact ecallConnectToOperator_spec (hentered false) rfl context playerId
  | ecallInitialize context => exact ecallInitialize_spec (hentered false) rfl context
  | ecallDepositAndInput depositTransaction input =>
    exact ecallDepositAndInput_spec (hentered false) rfl depositTransaction input
  | ecallGetDeposits context => exact ecallGetDeposits_spec (hentered true) rfl
  | ecallConfirmDeposits => exact ecallConfirmDeposits_spec (hentered false) rfl
  | ecallSettle context blocks =>
    exact ecallSettle_spec (hentered false) rfl context blocks hsettles
  | ecallRefund context blocks => exact ecallRefund_spec (hentered false) rfl context blocks

variable (dep) in
/-- What a log shows from its first entry on. -/
def observed (log : List (Entry (enclave dep))) : Observed :=
  log.foldl (observer dep).observe ⟨false, none, []⟩

/-- A failed callback makes the call fail and aborts the contract. -/
def Aborts (step : Step (enclave dep)) : Prop :=
  (∃ result ∈ (observed dep step.log).results, result ≠ 0) →
    step.result ≠ some (0 : Int32) ∧ step.after.state = .aborted

theorem aborts_iff {step : Step (enclave dep)} (valid : step.Valid)
    (finished : step.result.isSome) {context : Pointer}
    (hop : step.op = .ecallGetDeposits context) :
    Aborts step ↔ LastSucceeds dep (observed dep step.log).results := by
  obtain ⟨ret, hret⟩ := Option.isSome_iff_exists.mp finished
  have hspec : wp (observer dep).host (ReactsTo dep) (ecallGetDeposits dep context) step.before
      ⟨true, none, []⟩ := by
    by_cases hstate : step.before.state = .deposited
    · exact wp_mono (fun _ _ _ hreported => hreported.1.reactsTo hreported.2)
        (ecallGetDeposits_reported rfl rfl hstate)
    · simp only [ecallGetDeposits, wp_bind, wp_get, wp_ite, wp_pure]
      exact ⟨fun _ => by simp [ReactsTo, LastSucceeds],
        fun hnot => absurd (not_not.mp hnot) hstate⟩
  have hreacts : ReactsTo dep ret step.after (observed dep step.log) :=
    valid.returned hret (by rw [hop]; exact hspec)
  refine Iff.trans ?_ hreacts
  rw [Aborts, hret]
  exact imp_congr_right fun _ => and_congr (not_congr Option.some_inj) Iff.rfl

theorem results_append (m : Observed) (log : List (Entry (enclave dep))) :
    ∃ later, (log.foldl (observer dep).observe m).results = m.results ++ later := by
  induction log generalizing m with
  | nil => exact ⟨[], (List.append_nil _).symm⟩
  | cons entry log ih =>
    obtain ⟨later, hlater⟩ := ih ((observer dep).observe m entry)
    rw [List.foldl_cons, hlater]
    rcases entry with op | (c | ⟨c, answer⟩) | ⟨op, ret⟩
    · exact ⟨later, rfl⟩
    · exact ⟨later, rfl⟩
    · exact ⟨depositResult c answer ++ later, List.append_assoc _ _ _⟩
    · exact ⟨later, rfl⟩

/-- The last callback of a run is that of each of its beginnings. -/
theorem lastSucceeds_before {before after : List (Entry (enclave dep))}
    (h : LastSucceeds dep (observed dep (before ++ after)).results) :
    LastSucceeds dep (observed dep before).results := by
  intro ret hret
  obtain ⟨later, hlater⟩ := results_append (observed dep before) after
  apply h ret
  rw [observed, List.foldl_append, ← observed, hlater]
  rw [List.getElem?_append_left (List.getElem?_eq_some_iff.mp hret).1, hret]

theorem consistent_initial : Consistent dep initial ⟨false, none, []⟩ where
  early _ := ⟨rfl, rfl⟩
  output := by simp [initial]
  succeeded _ := by simp [initial, Underway]
  settled _ := by simp [initial]

/-- A call of `ecall_get_deposits` treats every failed callback as it should exactly when
the callback after the first `n`, if it comes to it, returns zero. In every run of which
this holds and in which no refunded player without an output settles, the enclave holds
the output of the accepted message in the states `GOT_DEPOSITS`, `CONFIRMED_DEPOSITS` and
`SETTLED`, and signs only when every callback so far has returned zero. -/
theorem failed_callback_aborts (dep : Deployment) :
    (∀ (step : Step (enclave dep)) (context : Pointer), step.Valid → step.result.isSome →
      step.op = .ecallGetDeposits context →
      (Aborts step ↔ LastSucceeds dep (observed dep step.log).results)) ∧
    ∀ (steps : List (Step (enclave dep))) (state : Globals),
      LastSucceeds dep (observed dep (logOf steps)).results →
      (∀ step ∈ steps, SettlesWithOutput dep step.before step.op) →
      (Run (enclave dep) initial steps state → Underway state.state ∨ state.state = .settled →
        HoldsOutput dep state (observed dep (logOf steps))) ∧
      (Trace (enclave dep) initial steps state → ∀ before after key advice sighash,
        logOf steps =
          before ++ .host (.issued (.zcashSignTransaction key advice sighash)) :: after →
        ∀ result ∈ (observed dep before).results, result = 0) := by
  refine ⟨fun step context valid finished hop => aborts_iff valid finished hop, ?_⟩
  intro steps state hlast hsettles
  refine ⟨fun run hstate => ?_, fun trace before after key advice sighash hlog => ?_⟩
  · have hconsistent : Consistent dep state (observed dep (logOf steps)) :=
      run.invariant hsettles consistent_initial fun op _ _ => handle_preserves op
    apply hconsistent.output
    rcases hstate with hunderway | hsettled
    · exact (hconsistent.succeeded hlast hunderway).2
    · exact hconsistent.settled hlast hsettled
  · have haccepts : (observer dep).Accepts ⟨false, none, []⟩ (logOf steps) :=
      trace.accepts hsettles consistent_initial fun op _ _ => handle_preserves op
    rw [hlog] at haccepts hlast
    obtain ⟨_, hsafe⟩ := haccepts.issued
    exact hsafe (lastSucceeds_before hlast)

section Examples

theorem contract_settles {globals : Globals} {op : Ecall} (h : op ∈ contract) :
    SettlesWithOutput zeroDeployment globals op := by
  simp only [contract, List.mem_cons, List.not_mem_nil, or_false] at h
  rcases h with rfl | rfl | rfl | rfl | rfl
  all_goals trivial

/-- A contract whose callbacks all succeed is confirmed with the output in place. -/
theorem failed_callback_aborts_contract :
    HoldsOutput zeroDeployment contractState (observed zeroDeployment (logOf contractSteps)) := by
  have hresults : (observed zeroDeployment (logOf contractSteps)).results = [0, 0, 0, 0] := by
    decide +kernel
  have hops : contractSteps.map Step.op = contract := playRun_ops
  refine ((failed_callback_aborts zeroDeployment).2 contractSteps contractState ?_ ?_).1
    contractSteps_run (.inl (.inr (by decide +kernel)))
  · rw [hresults]
    exact (lastSucceeds_append 0).mpr rfl
  · intro step hstep
    apply contract_settles
    rw [← hops]
    exact List.mem_map_of_mem hstep

/-- The host of the contract, but the last of the four deposit callbacks fails. -/
def failingHost {β : Type} : Nat → Call Callback β → Option β :=
  obligingHost (fun time _ => some (contractMessages time))
    (fun time => if time = 124 then -eio else 0)

def failingSteps : List (Step (enclave zeroDeployment)) :=
  playRun (enclave zeroDeployment) failingHost 0 initial contract

def failingStep : Step (enclave zeroDeployment) := failingSteps.get ⟨3, by decide +kernel⟩

/-- The contract goes on: `ecall_get_deposits` succeeds, and so does the confirmation, with
no output left. -/
theorem last_callback_ignored : ∃ state : Globals,
    Run (enclave zeroDeployment) initial failingSteps state ∧ failingStep ∈ failingSteps ∧
      ¬ Aborts failingStep ∧ state.state = .confirmedDeposits ∧
      state.functionalityOutput = none := by
  have hrun := run_playRun (enclave zeroDeployment) failingHost initial contract (by decide +kernel)
  have hresults : (observed zeroDeployment failingStep.log).results = [0, 0, 0, -eio] := by
    decide +kernel
  have hstate : failingStep.after.state = .gotDeposits := by decide +kernel
  refine ⟨_, hrun, List.get_mem _ _, ?_, ?_, ?_⟩
  · intro haborts
    obtain ⟨-, haborted⟩ := haborts ⟨-eio, by rw [hresults]; simp, by decide⟩
    rw [hstate] at haborted
    cases haborted
  · decide +kernel
  · decide +kernel

end Examples

end Auntie.Guarantees.DepositCallbacks
