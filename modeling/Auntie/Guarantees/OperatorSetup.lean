import Auntie.Source.Operator.Entry

/-!
# Setup before the contract, at the operator

`entry.c` does not record what `present_quotes` returned, and `ecall_clear_contract` checks
the state of the contract only. Where the host clears the contract after the last connection
has returned zero, every player has acknowledged the quotes of all the others before a message
of the contract is read or written.
-/

namespace Auntie.Guarantees.OperatorSetup
open Auntie.Source Auntie.Source.Operator Auntie.Interaction

/-- Every player was sent the report data and the quotes of all, has acknowledged them and
was told that the contract is live. -/
def Presented (filled : List Player) (events : List (Event (Call Callback))) : Prop :=
  let quotes := filled.map fun player => (player.reportData, player.quote.contents)
  ∀ player ∈ filled, ∃ acknowledgement : ReceivedMessage,
    acknowledgement.msgType = msgPlayersQuotesOk ∧
    [.answered (.auntieMsgSend
        (.ofPayload msgPlayersQuotesBroadcast (QuotesBroadcast.encode quotes)) player.channel) 0,
      .answered (.auntieMsgReceive player.channel) (some acknowledgement),
      .answered (.auntieMsgSend (.ofPayload msgSetupComplete []) player.channel) 0].Sublist events

theorem filterMap_range {α : Type} (l : List α) :
    ((List.range l.length).filterMap fun i => l[i]?) = l := by
  induction l with
  | nil => rfl
  | cons a l ih =>
    simp only [List.length_cons, List.range_succ_eq_map, List.filterMap_cons, List.filterMap_map,
      List.getElem?_cons_zero, Function.comp_def, List.getElem?_cons_succ, ih]

section PresentQuotes
variable {globals : Globals} {filled : List Player}

theorem wp_playerAt {M : Type*} {mon : Monitor (Call Callback) Globals M} {m : M}
    {post : Player → Globals → M → Prop} {i : Nat} {player : Player}
    (hfilled : globals.players = filled.map some) (hi : filled[i]? = some player) :
    wp mon post (playerAt i) globals m ↔ post player globals m := by
  have hslot : globals.players[i]?.join = some player := by
    rw [hfilled, List.getElem?_map, hi]
    rfl
  simp only [playerAt, wp_bind, wp_get, hslot, wp_deref_some]

/-- The indices at which there is a player. -/
def Occupied (filled : List Player) (indices : List Nat) : Prop :=
  ∀ i ∈ indices, i < filled.length

theorem Occupied.head {i : Nat} {rest : List Nat} (h : Occupied filled (i :: rest)) :
    ∃ player, filled[i]? = some player :=
  ⟨_, List.getElem?_eq_getElem (h i List.mem_cons_self)⟩

theorem Occupied.tail {i : Nat} {rest : List Nat} (h : Occupied filled (i :: rest)) :
    Occupied filled rest :=
  fun j hj => h j (List.mem_cons_of_mem i hj)

variable (hfilled : globals.players = filled.map some)
include hfilled

theorem printQuotes_spec {indices : List Nat} (hindices : Occupied filled indices)
    {events : List (Event (Call Callback))} :
    wp tape (fun error last _ => last = globals ∧ error ≠ some 0) (printQuotes indices)
      globals events := by
  induction indices generalizing events with
  | nil => exact ⟨rfl, (by simp)⟩
  | cons i rest ih =>
    obtain ⟨player, hplayer⟩ := hindices.head
    simp only [printQuotes, wp_bind, wp_playerAt hfilled hplayer, wp_tape_issue, wp_ite, wp_pure]
    intro ret
    exact ⟨fun hret => ⟨trivial, fun h => hret (Option.some.inj h)⟩, fun _ => ih hindices.tail⟩

theorem collectQuotes_spec {M : Type*} {mon : Monitor (Call Callback) Globals M} {m : M}
    {post : List (ReportData × Bytes) → Globals → M → Prop} {indices : List Nat}
    (hindices : Occupied filled indices) :
    wp mon post (collectQuotes indices) globals m ↔ post (indices.filterMap fun i =>
      filled[i]?.map fun player => (player.reportData, player.quote.contents)) globals m := by
  induction indices generalizing post with
  | nil => rfl
  | cons i rest ih =>
    obtain ⟨player, hplayer⟩ := hindices.head
    simp only [collectQuotes, wp_bind, wp_playerAt hfilled hplayer, wp_pure, ih hindices.tail]
    simp [hplayer]

theorem broadcast_spec (msg : Message) {indices : List Nat} (hindices : Occupied filled indices) :
    wp tape (fun error last events => last = globals ∧ error ≠ some 0 ∧
        (error = none → ∀ i ∈ indices, ∀ player, filled[i]? = some player →
          .answered (.auntieMsgSend msg player.channel) 0 ∈ events))
      (broadcast msg indices) globals [] := by
  induction indices with
  | nil => exact ⟨rfl, (by simp), fun _ => (by simp)⟩
  | cons i rest ih =>
    obtain ⟨player, hplayer⟩ := hindices.head
    simp only [broadcast, wp_bind, wp_playerAt hfilled hplayer, wp_tape_issue, wp_ite, wp_pure]
    intro ret
    refine ⟨fun hret => ⟨trivial, fun h => hret (Option.some.inj h), (by simp)⟩, fun hret => ?_⟩
    refine wp_tape_from (ih hindices.tail) ?_
    rintro error _ later ⟨rfl, herror, hsent⟩
    refine ⟨rfl, herror, fun hnone j hj other hother => ?_⟩
    rcases List.mem_cons.mp hj with rfl | hj
    · cases hplayer.symm.trans hother
      rw [not_not.mp hret]
      simp
    · exact List.mem_append_right _ (hsent hnone j hj other hother)

theorem receiveAcknowledgements_spec {indices : List Nat} (hindices : Occupied filled indices) :
    wp tape (fun error last events => last = globals ∧ error ≠ some 0 ∧
        (error = none → ∀ i ∈ indices, ∀ player, filled[i]? = some player →
          ∃ acknowledgement : ReceivedMessage, acknowledgement.msgType = msgPlayersQuotesOk ∧
            .answered (.auntieMsgReceive player.channel) (some acknowledgement) ∈ events))
      (receiveAcknowledgements indices) globals [] := by
  induction indices with
  | nil => exact ⟨rfl, (by simp), fun _ => (by simp)⟩
  | cons i rest ih =>
    have herror : some (-eio) ≠ some 0 := fun h => eio_error (Option.some.inj h)
    obtain ⟨player, hplayer⟩ := hindices.head
    simp only [receiveAcknowledgements, wp_bind, wp_playerAt hfilled hplayer, wp_tape_issue]
    intro msg
    cases msg with
    | none => exact ⟨rfl, herror, (by simp)⟩
    | some msg =>
      simp only [wp_ite, wp_bind, wp_tape_issue, wp_pure]
      refine ⟨fun _ _ => ⟨trivial, herror, (by simp)⟩, fun htype _ => ?_⟩
      refine wp_tape_from (ih hindices.tail) ?_
      rintro error _ later ⟨rfl, herror, hreceived⟩
      refine ⟨rfl, herror, fun hnone j hj other hother => ?_⟩
      rcases List.mem_cons.mp hj with rfl | hj
      · cases hplayer.symm.trans hother
        exact ⟨msg, not_not.mp htype, by simp⟩
      · obtain ⟨acknowledgement, htype, hmem⟩ := hreceived hnone j hj other hother
        exact ⟨acknowledgement, htype, List.mem_append_right _ hmem⟩

theorem presentQuotes_spec :
    wp tape (fun ret last events => last = globals ∧ (ret = 0 → Presented filled events))
      (presentQuotes filled.length) globals [] := by
  have hindices : Occupied filled (List.range filled.length) := fun i => List.mem_range.mp
  have hquotes := filterMap_range (filled.map fun player => (player.reportData, player.quote.contents))
  simp only [List.length_map, List.getElem?_map] at hquotes
  simp only [presentQuotes, wp_bind]
  refine wp_mono ?_ (printQuotes_spec hfilled hindices)
  rintro error _ _ ⟨rfl, herror⟩
  cases error with
  | some error => exact ⟨rfl, fun h => absurd (congrArg some h) herror⟩
  | none =>
    simp only [wp_bind]
    rw [collectQuotes_spec hfilled hindices, hquotes, wp_tape_issue]
    intro address
    cases address with
    | none => exact ⟨rfl, fun h => absurd h enomem_error⟩
    | some address =>
      rw [wp_bind]
      refine wp_tape_from (broadcast_spec hfilled _ hindices) ?_
      rintro error _ sent ⟨rfl, herror, hsent⟩
      rw [wp_bind, wp_tape_issue]
      intro _
      cases error with
      | some error => exact ⟨rfl, fun h => absurd (congrArg some h) herror⟩
      | none =>
        rw [wp_bind]
        refine wp_tape_from (receiveAcknowledgements_spec hfilled hindices) ?_
        rintro error _ received ⟨rfl, herror, hreceived⟩
        cases error with
        | some error => exact ⟨rfl, fun h => absurd (congrArg some h) herror⟩
        | none =>
          rw [wp_bind, wp_tape_issue]
          intro address
          cases address with
          | none => exact ⟨rfl, fun h => absurd h enomem_error⟩
          | some address =>
            rw [wp_bind]
            refine wp_tape_from (broadcast_spec hfilled _ hindices) ?_
            rintro error _ completed ⟨rfl, herror, hcompleted⟩
            rw [wp_bind, wp_tape_issue]
            intro _
            cases error with
            | some error => exact ⟨rfl, fun h => absurd (congrArg some h) herror⟩
            | none =>
              refine ⟨rfl, fun _ player hplayer => ?_⟩
              obtain ⟨i, hi, hget⟩ := List.mem_iff_getElem.mp hplayer
              have hi' := List.mem_range.mpr hi
              have hslot := (List.getElem?_eq_getElem hi).trans (congrArg some hget)
              have hfirst := List.singleton_sublist.mpr (hsent rfl i hi' player hslot)
              obtain ⟨acknowledgement, htype, hmem⟩ := hreceived rfl i hi' player hslot
              have hsecond := List.singleton_sublist.mpr hmem
              have hthird := List.singleton_sublist.mpr (hcompleted rfl i hi' player hslot)
              refine ⟨acknowledgement, htype, ((hfirst.append hsecond).append hthird).trans ?_⟩
              simp only [List.append_assoc]
              refine List.Sublist.trans ?_ (List.sublist_append_right _ _)
              refine List.Sublist.trans ?_ (List.sublist_append_right _ _)
              refine (List.append_sublist_append_left sent).mpr ?_
              refine List.Sublist.trans ?_ (List.sublist_append_right _ _)
              refine (List.append_sublist_append_left received).mpr ?_
              exact (List.sublist_append_left _ _).trans (List.sublist_append_right _ _)

end PresentQuotes

section Slots
variable {numPlayers : Nat}

/-- The counter counts the slots that are filled. -/
structure Slots (numPlayers : Nat) (globals : Globals) : Prop where
  length : globals.players.length = numPlayers
  connected : globals.playersConnected = globals.players.countP Option.isSome

theorem Slots.filled {globals : Globals} (h : Slots numPlayers globals)
    (hall : globals.playersConnected = numPlayers) :
    ∃ filled : List Player, filled.length = numPlayers ∧ globals.players = filled.map some := by
  have hevery : ∀ slot ∈ globals.players, slot.isSome := by
    rw [← List.countP_eq_length, ← h.connected, hall, h.length]
  obtain ⟨filled, hfilled⟩ : ∃ filled : List Player, globals.players = filled.map some := by
    generalize globals.players = players at hevery
    induction players with
    | nil => exact ⟨[], rfl⟩
    | cons slot players ih =>
      obtain ⟨player, hplayer⟩ := Option.isSome_iff_exists.mp (hevery slot List.mem_cons_self)
      obtain ⟨filled, hrest⟩ := ih fun other hother => hevery other (List.mem_cons_of_mem _ hother)
      exact ⟨player :: filled, by rw [hplayer, hrest, List.map_cons]⟩
  exact ⟨filled, by rw [← h.length, hfilled, List.length_map], hfilled⟩

/-- A new player fills a slot that was empty. -/
theorem Slots.add {globals : Globals} (h : Slots numPlayers globals) {player : Player}
    (hid : playerIdOk numPlayers globals.players player.id) :
    Slots numPlayers { globals with
      players := globals.players.set (player.id - 1) (some player)
      playersConnected := globals.playersConnected + 1 } := by
  have hlength := h.length
  simp only [playerIdOk, Bool.and_eq_true, decide_eq_true_eq] at hid
  obtain ⟨⟨hne, hle⟩, hempty⟩ := hid
  have hlt : player.id - 1 < globals.players.length := by omega
  refine ⟨(List.length_set).trans hlength, ?_⟩
  rw [List.getElem?_eq_getElem hlt, Option.join_some] at hempty
  simp [List.countP_set hlt, h.connected, Option.isNone_iff_eq_none.mp hempty]

theorem Presented.append {filled : List Player} {events : List (Event (Call Callback))}
    (h : Presented filled events) (earlier : List (Event (Call Callback))) :
    Presented filled (earlier ++ events) := by
  intro player hplayer
  obtain ⟨acknowledgement, htype, hevents⟩ := h player hplayer
  exact ⟨acknowledgement, htype, hevents.trans (List.sublist_append_right _ _)⟩

/-- What the handshake leaves as it is. -/
def SlotsKept (before last : Globals) : Prop :=
  last.players = before.players ∧ last.playersConnected = before.playersConnected

theorem Slots.of_kept {before last : Globals} (h : Slots numPlayers before)
    (hkept : SlotsKept before last) : Slots numPlayers last :=
  ⟨by rw [hkept.1]; exact h.length, by rw [hkept.1, hkept.2]; exact h.connected⟩

/-- One call: if all the players are connected when it returns zero, it has presented the
quotes. -/
theorem ecallConnectToPlayer_spec {dep : Deployment} {globals : Globals}
    (hslots : Slots dep.build.numPlayers globals) (context : Pointer)
    (hother : globals.playersConnected ≠ dep.build.numPlayers) :
    wp tape (fun ret last events => Slots dep.build.numPlayers last ∧
        (ret = 0 → last.playersConnected = dep.build.numPlayers → ∃ filled : List Player,
          filled.length = dep.build.numPlayers ∧ last.players = filled.map some ∧
            Presented filled events))
      (ecallConnectToPlayer dep context) globals [] := by
  have hknows : ∀ _ _ : List (Event (Call Callback)), True → True := fun _ _ => id
  have hopen {last : Globals} (hkept : SlotsKept globals last) :
      last.playersConnected ≠ dep.build.numPlayers := by
    rw [hkept.2]
    exact hother
  simp only [ecallConnectToPlayer, wp_bind, wp_get, wp_ite, wp_pure]
  refine ⟨fun hall => absurd (of_decide_eq_true hall) hother, fun _ => ?_⟩
  have hlearn : learnQuotingEnclave.Within (fun _ => True) (SlotsKept globals) :=
    learnQuotingEnclave_within trivial fun _ _ _ => id
  refine hlearn.tape hknows ⟨rfl, rfl⟩ trivial ?_
  intro error last events hkept _
  cases error with
  | some error => exact ⟨hslots.of_kept hkept, fun _ hall => absurd hall (hopen hkept)⟩
  | none =>
    have hstash : ∀ (last : Globals) stash, SlotsKept globals last →
        SlotsKept globals { last with stash := stash } := fun _ _ h => h
    rw [wp_bind]
    refine (mutualAttestation_sends hstash dep.tcrypto dep.build.numPlayers context).tape
      hknows hkept trivial ?_
    intro player last events hkept _
    cases player with
    | none => exact ⟨hslots.of_kept hkept, fun h => absurd h eio_error⟩
    | some player =>
      simp only [addPlayer, wp_bind, wp_get, wp_ite, wp_modify, wp_fault]
      refine ⟨fun _ => trivial, fun hid => ?_⟩
      simp only [Bool.not_eq_true', Bool.not_eq_false] at hid
      have hadded := (hslots.of_kept hkept).add hid
      simp only [wp_pure]
      refine ⟨fun hall => ?_, fun hopen => ⟨hadded, fun _ hall => absurd hall ?_⟩⟩
      · obtain ⟨filled, hlength, hfilled⟩ := hadded.filled (of_decide_eq_true hall)
        rw [← hlength]
        refine wp_tape_from (presentQuotes_spec hfilled) ?_
        rintro ret _ later ⟨rfl, hpresented⟩
        exact ⟨hlength ▸ hadded, fun hret _ => ⟨filled, rfl, hfilled, (hpresented hret).append _⟩⟩
      · simpa [allPlayersConnected] using hopen

end Slots

section Runs
variable {dep : Deployment}

/-- The last connection, which has returned zero. -/
def completes (step : Step (enclave dep)) : Bool :=
  let ret : Option Int32 := step.result
  match step.op with
  | .ecallConnectToPlayer _ =>
    ret = some 0 && allPlayersConnected dep.build.numPlayers step.after
  | _ => false

theorem completes_connect {before last : Globals} {context : Pointer}
    {events : List (Event (Call Callback))} {ret : Int32}
    (h : completes (⟨before, Ecall.ecallConnectToPlayer context, events, last, some ret⟩ :
      Step (enclave dep))) : ret = 0 ∧ last.playersConnected = dep.build.numPlayers := by
  obtain ⟨hret, hall⟩ := Bool.and_eq_true_iff.mp h
  exact ⟨Option.some.inj (of_decide_eq_true hret), of_decide_eq_true hall⟩

/-- A contract that is cleared in its state is cleared after the last connection. -/
def ClearsConnected (earlier : List (Step (enclave dep))) (step : Step (enclave dep)) : Prop :=
  ∀ context payoutAddress collateralTransaction merklePaths,
    step.op = Ecall.ecallClearContract context payoutAddress collateralTransaction merklePaths →
      step.before.state = .initialized → ∃ connect ∈ earlier, completes connect

/-- The connection `connect` has filled the slots and presented the quotes of all. -/
def SetUp (connect : Step (enclave dep)) (globals : Globals) : Prop :=
  ∃ filled : List Player, filled.length = dep.build.numPlayers ∧
    globals.players = filled.map some ∧ Presented filled connect.events

structure Inv (steps : List (Step (enclave dep))) (globals : Globals) : Prop where
  slots : Slots dep.build.numPlayers globals
  completed : ∀ connect ∈ steps, completes connect →
    globals.playersConnected = dep.build.numPlayers ∧ SetUp connect globals
  cleared : globals.state = .clearedContract → ∃ connect ∈ steps, completes connect

/-- A step of the contract. -/
theorem Inv.of_kept {steps : List (Step (enclave dep))} {step : Step (enclave dep)}
    (h : Inv steps step.before) (hkept : SlotsKept step.before step.after)
    (hother : completes step = false)
    (hcleared : step.after.state = .clearedContract → ∃ connect ∈ steps, completes connect) :
    Inv (steps ++ [step]) step.after where
  slots := h.slots.of_kept hkept
  completed connect hconnect hcompletes := by
    rcases List.mem_append.mp hconnect with hconnect | hconnect
    · obtain ⟨hconnected, filled, hlength, hfilled, hpresented⟩ :=
        h.completed connect hconnect hcompletes
      exact ⟨hkept.2.trans hconnected, filled, hlength, hkept.1.trans hfilled, hpresented⟩
    · rw [List.mem_singleton.mp hconnect, hother] at hcompletes
      cases hcompletes
  cleared hstate := by
    obtain ⟨connect, hconnect, hcompletes⟩ := hcleared hstate
    exact ⟨connect, List.mem_append_left _ hconnect, hcompletes⟩

/-- A connection. -/
theorem Inv.connect {steps : List (Step (enclave dep))} {before last : Globals} {context : Pointer}
    {events : List (Event (Call Callback))} {ret : Int32} (h : Inv steps before)
    (hexec : Exec (ecallConnectToPlayer dep context) before events last (some ret)) :
    Inv (steps ++ [⟨before, Ecall.ecallConnectToPlayer context, events, last, some ret⟩])
      last := by
  by_cases hall : before.playersConnected = dep.build.numPlayers
  · have hbusy : wp tape (fun ret last _ => ret = -ebusy ∧ last = before)
        (ecallConnectToPlayer dep context) before [] := by
      simp [ecallConnectToPlayer, allPlayersConnected, hall]
    obtain ⟨rfl, rfl⟩ := hexec.taped hbusy
    refine h.of_kept ⟨rfl, rfl⟩ (Bool.eq_false_iff.mpr fun hcompletes => ?_) h.cleared
    exact ebusy_error (completes_connect hcompletes).1
  · obtain ⟨hslots, hpresented⟩ := hexec.taped (ecallConnectToPlayer_spec h.slots context hall)
    have hkept := (ecallConnectToPlayer_permitted context).kept hexec
      (⟨_, _, _, _, _, rfl⟩ : SetupOnly before before)
    refine ⟨hslots, fun connect hconnect hcompletes => ?_, fun hstate => ?_⟩
    · rcases List.mem_append.mp hconnect with hconnect | hconnect
      · exact absurd (h.completed connect hconnect hcompletes).1 hall
      · rw [List.mem_singleton.mp hconnect] at hcompletes ⊢
        obtain ⟨hret, hconnected⟩ := completes_connect hcompletes
        exact ⟨hconnected, hpresented hret hconnected⟩
    · obtain ⟨_, _, _, _, _, rfl⟩ := hkept
      obtain ⟨connect, hconnect, hcompletes⟩ := h.cleared hstate
      exact ⟨connect, List.mem_append_left _ hconnect, hcompletes⟩

/-- What the ECALLs of the contract do to the slots and to the state. -/
theorem ecallInitialize_kept (context : Pointer) (before : Globals) :
    wp ({} : Monitor (Call Callback) Globals Unit)
      (fun _ last _ => SlotsKept before last ∧
        (last.state = .clearedContract → before.state = .clearedContract))
      (ecallInitialize context) before () := by
  simp only [ecallInitialize, setState, wp_bind, wp_get, wp_ite, wp_pure, wp_modify]
  refine ⟨fun _ => ⟨⟨rfl, rfl⟩, id⟩, fun _ => ?_⟩
  refine (ecallInitializeImpl_within context).quiet (fun _ _ _ => trivial) (fun _ _ _ => rfl)
    ⟨_, rfl⟩ ?_
  rintro ret _ ⟨_, rfl⟩
  exact ⟨fun _ => ⟨⟨rfl, rfl⟩, (by simp)⟩, fun _ => ⟨⟨rfl, rfl⟩, id⟩⟩

theorem ecallClearContract_kept (context : Pointer)
    (payoutAddress collateralTransaction merklePaths : Bytes) (before : Globals) :
    wp ({} : Monitor (Call Callback) Globals Unit)
      (fun _ last _ => SlotsKept before last ∧ (last.state = .clearedContract →
        before.state = .clearedContract ∨ before.state = .initialized))
      (ecallClearContract dep context payoutAddress collateralTransaction merklePaths)
      before () := by
  simp only [ecallClearContract, setState, wp_bind, wp_get, wp_ite, wp_pure, wp_modify]
  refine ⟨fun _ => ⟨⟨rfl, rfl⟩, .inl⟩, fun hstate => ?_⟩
  refine (ecallClearContractImpl_within context payoutAddress collateralTransaction
    merklePaths).quiet (fun _ _ _ => trivial) (fun _ _ _ => rfl) ⟨_, _, rfl⟩ ?_
  rintro ret _ ⟨_, _, rfl⟩
  exact ⟨⟨rfl, rfl⟩, fun _ => .inr (not_not.mp hstate)⟩

theorem ecallFinalize_kept (context : Pointer) (before : Globals) :
    wp ({} : Monitor (Call Callback) Globals Unit)
      (fun _ last _ => SlotsKept before last ∧
        (last.state = .clearedContract → before.state = .clearedContract))
      (ecallFinalize dep context) before () := by
  simp only [ecallFinalize, setState, wp_bind, wp_get, wp_ite, wp_pure, wp_modify]
  refine ⟨fun _ => ⟨⟨rfl, rfl⟩, id⟩, fun hstate => ?_⟩
  refine (ecallFinalizeImpl_within context).quiet (fun _ _ _ => trivial) (fun _ _ _ => rfl)
    ⟨_, _, rfl⟩ ?_
  rintro ret _ ⟨_, _, rfl⟩
  exact ⟨⟨rfl, rfl⟩, fun _ => not_not.mp hstate⟩

theorem ecallRefund_kept (context : Pointer) (blocks : Bytes) (before : Globals) :
    wp ({} : Monitor (Call Callback) Globals Unit)
      (fun _ last _ => SlotsKept before last ∧
        (last.state = .clearedContract → before.state = .clearedContract))
      (ecallRefund dep context blocks) before () := by
  simp only [ecallRefund, setState, wp_bind, wp_get, wp_ite, wp_pure, wp_modify]
  refine ⟨fun _ => ⟨⟨rfl, rfl⟩, id⟩, fun _ => ?_⟩
  refine (ecallRefundImpl_sends dep context blocks).quiet (fun _ _ _ => trivial)
    (fun _ _ _ => rfl) rfl ?_
  rintro ret _ rfl
  exact ⟨fun _ => ⟨⟨rfl, rfl⟩, (by simp)⟩, fun _ => ⟨⟨rfl, rfl⟩, id⟩⟩

theorem step_inv {steps : List (Step (enclave dep))} {step : Step (enclave dep)}
    (h : Inv steps step.before) (valid : step.Valid) (finished : step.result.isSome)
    (hmeets : ClearsConnected steps step) : Inv (steps ++ [step]) step.after := by
  obtain ⟨before, op, events, last, result⟩ := step
  obtain ⟨ret, rfl⟩ := Option.isSome_iff_exists.mp finished
  cases op with
  | ecallConnectToPlayer context => exact h.connect valid
  | ecallInitialize context =>
    obtain ⟨hkept, hstate⟩ := Exec.returned valid (ecallInitialize_kept context before)
    exact h.of_kept hkept rfl fun hcleared => h.cleared (hstate hcleared)
  | ecallClearContract context payoutAddress collateralTransaction merklePaths =>
    obtain ⟨hkept, hstate⟩ := Exec.returned valid
      (ecallClearContract_kept context payoutAddress collateralTransaction merklePaths before)
    refine h.of_kept hkept rfl fun hcleared => ?_
    rcases hstate hcleared with hcleared | hinitialized
    · exact h.cleared hcleared
    · exact hmeets _ _ _ _ rfl hinitialized
  | ecallFinalize context =>
    obtain ⟨hkept, hstate⟩ := Exec.returned valid (ecallFinalize_kept context before)
    exact h.of_kept hkept rfl fun hcleared => h.cleared (hstate hcleared)
  | ecallRefund context blocks =>
    obtain ⟨hkept, hstate⟩ := Exec.returned valid (ecallRefund_kept context blocks before)
    exact h.of_kept hkept rfl fun hcleared => h.cleared (hstate hcleared)

/-- The step receives or sends a message. -/
def isMessage : Event (Call Callback) → Bool
  | .issued (.auntieMsgReceive _) | .issued (.auntieMsgSend _ _) => true
  | _ => false

/-- A step of the contract that receives or sends a message. -/
def Processes (step : Step (enclave dep)) : Prop :=
  (match step.op with
    | .ecallClearContract _ _ _ _ | .ecallFinalize _ => True
    | _ => False) ∧ step.events.any isMessage

theorem ecallClearContract_refused {context : Pointer}
    {payoutAddress collateralTransaction merklePaths : Bytes} {before last : Globals}
    {events : List (Event (Call Callback))} {result : Option Int32}
    (hstate : before.state ≠ .initialized)
    (hexec : Exec (ecallClearContract dep context payoutAddress collateralTransaction merklePaths)
      before events last result) : events = [] := by
  simp only [ecallClearContract, exec_get_bind, if_pos hstate, exec_pure] at hexec
  exact hexec.1

theorem ecallFinalize_refused {context : Pointer} {before last : Globals}
    {events : List (Event (Call Callback))} {result : Option Int32}
    (hstate : before.state ≠ .clearedContract)
    (hexec : Exec (ecallFinalize dep context) before events last result) : events = [] := by
  simp only [ecallFinalize, exec_get_bind, if_pos hstate, exec_pure] at hexec
  exact hexec.1

/-- A message of the contract is processed in the states of the contract only. -/
theorem Processes.state {step : Step (enclave dep)} (h : Processes step) (valid : step.Valid) :
    (∃ context payoutAddress collateralTransaction merklePaths,
      step.op = Ecall.ecallClearContract context payoutAddress collateralTransaction merklePaths ∧
        step.before.state = .initialized) ∨ step.before.state = .clearedContract := by
  obtain ⟨before, op, events, last, result⟩ := step
  obtain ⟨hop, hevents⟩ := h
  have hquiet (hnone : events = []) : False := by
    rw [hnone] at hevents
    cases hevents
  cases op with
  | ecallClearContract context payoutAddress collateralTransaction merklePaths =>
    by_cases hstate : before.state = .initialized
    · exact .inl ⟨_, _, _, _, rfl, hstate⟩
    · exact (hquiet (ecallClearContract_refused hstate valid)).elim
  | ecallFinalize context =>
    by_cases hstate : before.state = .clearedContract
    · exact .inr hstate
    · exact (hquiet (ecallFinalize_refused hstate valid)).elim
  | _ => exact absurd hop id

/-- In every run that clears the contract after the last connection, messages of the contract
are processed with all slots filled and the quotes acknowledged by all players. -/
theorem messages_after_quotes (dep : Deployment) {steps : List (Step (enclave dep))}
    {state : Globals} (trace : Trace (enclave dep) (initial dep) steps state)
    (hcleared : Throughout ClearsConnected steps) :
    Throughout (fun earlier step => Processes step →
      ∃ connect ∈ earlier, completes connect ∧ SetUp connect step.before) steps := by
  have hinit : Inv ([] : List (Step (enclave dep))) (initial dep) := by
    refine ⟨⟨List.length_replicate, ?_⟩, fun _ => nofun, by simp [initial]⟩
    exact (List.countP_eq_zero.mpr (by simp [initial])).symm
  have hrun := trace.throughout hcleared hinit fun _ _ => step_inv
  intro earlier step later hsplit hprocesses
  obtain ⟨hinv, hvalid, hmeets⟩ := hrun earlier step later hsplit
  have hconnect : ∃ connect ∈ earlier, completes connect := by
    rcases hprocesses.state hvalid with ⟨_, _, _, _, hop, hstate⟩ | hstate
    · exact hmeets _ _ _ _ hop hstate
    · exact hinv.cleared hstate
  obtain ⟨connect, hconnect, hcompletes⟩ := hconnect
  exact ⟨connect, hconnect, hcompletes, (hinv.completed connect hconnect hcompletes).2⟩

end Runs

section Examples

theorem contract_cleared : Throughout ClearsConnected contractSteps := by
  intro earlier step later hsplit _ _ _ _ hop _
  have hget (i : Nat) : contractSteps[i]? = (earlier ++ step :: later)[i]? := by rw [hsplit]
  have hconnects (context : Pointer)
      (hconnect : some (Ecall.ecallConnectToPlayer context) = some step.op) : False := by
    cases hconnect.trans (congrArg some hop)
  rcases earlier with _ | ⟨first, _ | ⟨second, _ | ⟨third, rest⟩⟩⟩
  · exact (hconnects 1 (congrArg (Option.map Step.op) (hget 0))).elim
  · exact (hconnects 2 (congrArg (Option.map Step.op) (hget 1))).elim
  · exact (hconnects 3 (congrArg (Option.map Step.op) (hget 2))).elim
  · have hthird : (contractSteps[2]?.any completes) = true := by decide +kernel
    rw [hget 2] at hthird
    exact ⟨third, by simp, hthird⟩

/-- The contract of three players is cleared after all of them have connected. -/
theorem messages_after_quotes_played :
    Throughout (fun earlier step => Processes step →
      ∃ connect ∈ earlier, completes connect ∧ SetUp connect step.before) contractSteps :=
  messages_after_quotes zeroDeployment (.resting contractSteps_run) contract_cleared

/-- The third player does not acknowledge the quotes. -/
def silentHost {β : Type} : Nat → Call Callback β → Option β :=
  obligingHost (fun time channel =>
    if channel.id = 3 ∧ 150 ≤ time ∧ time < 170 then none
    else some (contractMessages (time + 16) channel)) (fun _ => 0)

def silentContract : List Ecall :=
  [.ecallConnectToPlayer 1, .ecallConnectToPlayer 2, .ecallConnectToPlayer 3, .ecallInitialize 0,
    .ecallClearContract 0 [1] [2] [3]]

def silentSteps : List (Step (enclave zeroDeployment)) :=
  playRun (enclave zeroDeployment) silentHost 0 (initial zeroDeployment) silentContract

theorem silentSteps_run : Run (enclave zeroDeployment) (initial zeroDeployment) silentSteps
    (lastState (enclave zeroDeployment) (initial zeroDeployment) silentSteps) :=
  run_playRun (enclave zeroDeployment) silentHost (initial zeroDeployment) silentContract
    (by decide +kernel)

/-- `present_quotes` fails, and the contract is cleared all the same. -/
theorem cleared_without_acknowledgement :
    ∃ (steps : List (Step (enclave zeroDeployment))) (state : Globals),
      Trace (enclave zeroDeployment) (initial zeroDeployment) steps state ∧
      ¬ Throughout (fun earlier step => Processes step →
        ∃ connect ∈ earlier, completes connect ∧ SetUp connect step.before) steps := by
  refine ⟨silentSteps, _, .resting silentSteps_run, fun hthroughout => ?_⟩
  obtain ⟨clear, hclear⟩ : ∃ clear, silentSteps = silentSteps.take 4 ++ [clear] := ⟨_, rfl⟩
  have hget : silentSteps[4]? = some clear := by
    rw [hclear]
    rfl
  have hevents : (silentSteps[4]?.any fun step => step.events.any isMessage) = true := by
    decide +kernel
  have hop : some (Ecall.ecallClearContract 0 [1] [2] [3]) = some clear.op :=
    congrArg (Option.map Step.op) hget
  have hnone : ((silentSteps.take 4).all fun step => !completes step) = true := by decide +kernel
  rw [hget] at hevents
  have hprocesses : Processes clear := ⟨by rw [← Option.some.inj hop]; trivial, hevents⟩
  obtain ⟨connect, hconnect, hcompletes, _⟩ := hthroughout _ clear [] hclear hprocesses
  have hother := List.all_eq_true.mp hnone connect hconnect
  rw [hcompletes] at hother
  cases hother

end Examples

end Auntie.Guarantees.OperatorSetup
