import Auntie.Guarantees.OperatorSetup
import Auntie.Interaction.Moments

/-!
# The table of players

The id of a player is read from a message that nobody has signed, and checked long before the
slot is filled. Whatever arrives, the counter counts the slots that are filled, slot `j` holds
the player with the id `j + 1`, a slot that is filled stays as it is, and the quotes are
presented by the one connection that fills the last slot.
-/

namespace Auntie.Guarantees.PlayerTable
open Auntie.Source Auntie.Source.Operator Auntie.Interaction
open OperatorSetup (Slots SlotsKept wp_playerAt Occupied)

section Statement

/-- The slots are counted, and each belongs to the id of its player and of the channel. -/
structure Table (numPlayers : Nat) (globals : Globals) : Prop where
  length : globals.players.length = numPlayers
  connected : globals.playersConnected = globals.players.countP Option.isSome
  ids : ∀ (j : Nat) (player : Player), globals.players[j]? = some (some player) →
    player.id = j + 1 ∧ player.channel.id = j + 1

/-- No slot is `NULL`. -/
def Full (numPlayers : Nat) (globals : Globals) : Prop :=
  ∃ filled : List Player, filled.length = numPlayers ∧ globals.players = filled.map some

/-- What fills a slot stays in it. -/
def Extends (before last : Globals) : Prop :=
  ∀ (j : Nat) (player : Player), before.players[j]? = some (some player) →
    last.players[j]? = some (some player)

/-- `present_quotes` begins by showing the quotes to the host, and nothing else does. -/
def showsQuote : Event (Call Callback) → Bool
  | .issued (.ocallPrintQuote _ _) => true
  | _ => false

def faults : Event (Call Callback) → Bool
  | .issued .fault => true
  | _ => false

variable {dep : Deployment}

def connects (step : Step (enclave dep)) : Bool :=
  match step.op with
  | .ecallConnectToPlayer _ => true
  | _ => false

def presentsQuotes (step : Step (enclave dep)) : Bool := connects step && step.events.any showsQuote

end Statement

section Table
variable {numPlayers : Nat} {before last : Globals}

theorem Table.slots (h : Table numPlayers before) : Slots numPlayers before :=
  ⟨h.length, h.connected⟩

theorem Table.of_kept (h : Table numPlayers before) (hkept : SlotsKept before last) :
    Table numPlayers last where
  length := hkept.1.symm ▸ h.length
  connected := hkept.2.trans (hkept.1.symm ▸ h.connected)
  ids := by
    rw [hkept.1]
    exact h.ids

theorem Extends.of_kept (h : last.players = before.players) : Extends before last := by
  intro j player hslot
  rw [h]
  exact hslot

theorem Extends.full (h : Extends before last) (hfull : Full numPlayers before)
    (hlength : last.players.length = numPlayers) : Full numPlayers last := by
  obtain ⟨filled, hcount, hfilled⟩ := hfull
  refine ⟨filled, hcount, ?_⟩
  apply List.ext_getElem?
  intro j
  by_cases hj : j < filled.length
  · have hslot : before.players[j]? = some (some filled[j]) := by
      rw [hfilled, List.getElem?_map, List.getElem?_eq_getElem hj]
      rfl
    rw [h j filled[j] hslot, List.getElem?_map, List.getElem?_eq_getElem hj]
    rfl
  · rw [List.getElem?_eq_none (by omega), List.getElem?_eq_none (by simpa using hj)]

theorem Table.full_iff (h : Table numPlayers before) :
    before.playersConnected = numPlayers ↔ Full numPlayers before := by
  constructor
  · exact h.slots.filled
  · intro hfull
    obtain ⟨filled, hcount, hfilled⟩ := hfull
    rw [h.connected, hfilled, List.countP_map, ← hcount]
    exact List.countP_eq_length.mpr fun _ _ => rfl

/-- What the check of an id says. -/
theorem playerIdOk_iff {players : List (Option Player)} {id : Nat}
    (hlength : players.length = numPlayers) :
    playerIdOk numPlayers players id ↔ 0 < id ∧ id ≤ numPlayers ∧ players[id - 1]? = some none := by
  simp only [playerIdOk, Bool.and_eq_true, decide_eq_true_eq, Nat.pos_iff_ne_zero, and_assoc]
  refine and_congr_right fun hne => and_congr_right fun hle => ?_
  have hlt : id - 1 < players.length := by omega
  rw [List.getElem?_eq_getElem hlt, Option.join_some, Option.some.injEq]
  exact Option.isNone_iff_eq_none

/-- The globals with a player added. -/
def added (globals : Globals) (player : Player) : Globals :=
  { globals with
    players := globals.players.set (player.id - 1) (some player)
    playersConnected := globals.playersConnected + 1 }

theorem Extends.added {globals : Globals} {player : Player}
    (hempty : globals.players[player.id - 1]?.join.isNone) :
    Extends globals (added globals player) := by
  intro j other hslot
  have hne : player.id - 1 ≠ j := by
    intro hsame
    rw [hsame, hslot] at hempty
    cases hempty
  rw [PlayerTable.added, List.getElem?_set_ne hne]
  exact hslot

theorem Table.added (h : Table numPlayers before) {player : Player}
    (hid : playerIdOk numPlayers before.players player.id)
    (hchannel : player.channel.id = player.id) : Table numPlayers (added before player) where
  length := (h.slots.add hid).length
  connected := (h.slots.add hid).connected
  ids := by
    obtain ⟨hpositive, hle, _⟩ := (playerIdOk_iff h.length).mp hid
    intro j other hslot
    by_cases hsame : player.id - 1 = j
    · have hlt : j < before.players.length := by
        have hlength := h.length
        omega
      rw [PlayerTable.added, hsame, List.getElem?_set_self hlt] at hslot
      obtain rfl : player = other := Option.some.inj (Option.some.inj hslot)
      constructor
      · omega
      · rw [hchannel]
        omega
    · rw [PlayerTable.added, List.getElem?_set_ne hsame] at hslot
      exact h.ids j other hslot

end Table

section Handshake
variable {before globals : Globals}

/-- The calls that are neither a fault nor show a quote. -/
def Quiet {β : Type} : Call Callback β → Prop
  | .fault | .ocallPrintQuote _ _ => False
  | _ => True

theorem quiet_of_handshake {β : Type} (c : Call Callback β) (h : c.Handshake) : Quiet c := by
  cases c with
  | fault | ocallPrintQuote => exact h
  | _ => trivial

theorem learnQuotingEnclave_quiet : learnQuotingEnclave.Within Quiet (SlotsKept before) :=
  learnQuotingEnclave_within trivial fun _ _ _ => id

theorem mutualAttestation_quiet (tcrypto : Tcrypto) (numPlayers : Nat) (context : Pointer) :
    (mutualAttestation tcrypto numPlayers context).Within Quiet (SlotsKept before) :=
  mutualAttestation_within quiet_of_handshake (fun _ => trivial) (fun _ _ => id) (fun _ => trivial)
    (fun _ _ => trivial) tcrypto numPlayers context

abbrev unmonitored : Monitor (Call Callback) Globals Unit := {}

section Steps
variable {α β : Type} {post : α → Globals → Unit → Prop}

theorem step_returns {c : Call Callback β} {f : β → Code α}
    (h : ∀ answer, wp unmonitored post (f answer) globals ()) :
    wp unmonitored post (issue c >>= f) globals () := ⟨trivial, h⟩

theorem get_returns {f : Globals → Code α} (h : wp unmonitored post (f globals) globals ()) :
    wp unmonitored post ((MonadState.get : Code Globals) >>= f) globals () := h

theorem modify_returns {g : Globals → Globals} {f : PUnit → Code α}
    (h : wp unmonitored post (f ()) (g globals) ()) :
    wp unmonitored post (modify g >>= f) globals () := h

end Steps

/-- A player of the handshake has the id that its channel was assigned. -/
def Assigned (id : Nat) (result : Option Player) : Prop :=
  ∀ player, result = some player → player.channel.id = id ∧ player.id = id

theorem assigned_none {id : Nat} : Assigned id none := fun _ h => by cases h

theorem assigned_some {struct : Pointer} {channel : ChannelRef} {reportData : ReportData}
    {quote : Buffer} :
    Assigned channel.id (some ⟨struct, channel, channel.id, reportData, quote⟩) := by
  intro player hplayer
  cases hplayer
  exact ⟨rfl, rfl⟩

section Parts
variable {α : Type} {post : α → Globals → Unit → Prop}

theorem dropStashedQuote_returns {f : PUnit → Code α}
    (h : ∀ last, wp unmonitored post (f ()) last ()) :
    wp unmonitored post (dropStashedQuote >>= f) globals () := by
  unfold dropStashedQuote
  rw [wp_bind, wp_bind, wp_get]
  cases globals.stash.quote with
  | none => exact h _
  | some quote => exact ⟨trivial, fun _ => h _⟩

theorem getReportData_returns {tcrypto : Tcrypto} {nonce : Blocks.Digest} {ga gb : PublicKey}
    {f : Except Int32 ReportData → Code α}
    (h : ∀ result, wp unmonitored post (f result) globals ()) :
    wp unmonitored post (getReportData tcrypto nonce ga gb >>= f) globals () :=
  wp_bind.mpr ((getReportData_within nonce ga gb).unmonitored h)

theorem getSessionKey_returns {tcrypto : Tcrypto} {ga gb : PublicKey} {gab : SharedKey}
    {f : Except Int32 SessionKey → Code α}
    (h : ∀ result, wp unmonitored post (f result) globals ()) :
    wp unmonitored post (getSessionKey tcrypto ga gb gab >>= f) globals () :=
  wp_bind.mpr ((getSessionKey_within ga gb gab).unmonitored h)

end Parts

theorem receiveAck_assigned (channel : ChannelRef) (playerReportData : ReportData) :
    wp unmonitored (fun result _ _ => Assigned channel.id result)
      (receiveAck channel playerReportData) globals () := by
  unfold receiveAck
  repeat' with_reducible first
    | apply step_returns
    | intro _
    | split
  all_goals first
    | exact assigned_none
    | exact assigned_some

theorem answerSyn_assigned (channel : ChannelRef) (msg1 : Pointer) (nonce : Blocks.Digest)
    (gb : PublicKey) (sessionKey : SessionKey) (operatorReportData playerReportData : ReportData) :
    wp unmonitored (fun result _ _ => Assigned channel.id result)
      (answerSyn channel msg1 nonce gb sessionKey operatorReportData playerReportData)
      globals () := by
  have hack : ∀ last, wp unmonitored (fun result _ _ => Assigned channel.id result)
      (receiveAck (channel.encrypt sessionKey) playerReportData) last () :=
    fun last => receiveAck_assigned (channel.encrypt sessionKey) playerReportData
  unfold answerSyn stashQuotes
  repeat' with_reducible first
    | apply step_returns
    | apply get_returns
    | apply modify_returns
    | apply dropStashedQuote_returns
    | exact hack _
    | intro _
    | split
  all_goals exact assigned_none

/-- A player of the handshake has the id of its channel, and one that was free. -/
def Admitted (numPlayers : Nat) (globals : Globals) (result : Option Player) : Prop :=
  ∀ player, result = some player →
    player.channel.id = player.id ∧ playerIdOk numPlayers globals.players player.id

theorem admitted_none {numPlayers : Nat} : Admitted numPlayers globals none :=
  fun _ h => by cases h

theorem Assigned.admitted {numPlayers id : Nat} {result : Option Player} (h : Assigned id result)
    (hid : playerIdOk numPlayers globals.players id) : Admitted numPlayers globals result := by
  intro player hplayer
  obtain ⟨hchannel, hplayer⟩ := h player hplayer
  rw [hchannel, hplayer]
  exact ⟨rfl, hid⟩

theorem answerSyn_admitted {numPlayers : Nat} {first : Globals} {channel : ChannelRef}
    (hid : playerIdOk numPlayers first.players channel.id) (msg1 : Pointer) (nonce : Blocks.Digest)
    (gb : PublicKey) (sessionKey : SessionKey) (operatorReportData playerReportData : ReportData) :
    wp unmonitored (fun result _ _ => Admitted numPlayers first result)
      (answerSyn channel msg1 nonce gb sessionKey operatorReportData playerReportData)
      globals () :=
  wp_mono (fun _ _ _ h => h.admitted hid)
    (answerSyn_assigned channel msg1 nonce gb sessionKey operatorReportData playerReportData)

theorem mutualAttestation_admitted (tcrypto : Tcrypto) (numPlayers : Nat) (context : Pointer) :
    wp unmonitored (fun result _ _ => Admitted numPlayers globals result)
      (mutualAttestation tcrypto numPlayers context) globals () := by
  unfold mutualAttestation deriveSecrets
  repeat' with_reducible first
    | apply step_returns
    | apply get_returns
    | apply getReportData_returns
    | apply getSessionKey_returns
    | refine answerSyn_admitted ?_ _ _ _ _ _ _
    | intro _
    | split
  all_goals first
    | exact admitted_none
    | simp_all [ChannelRef.assignId]

end Handshake

section PresentQuotes
variable {globals : Globals} {filled : List Player}

def Faultless {β : Type} : Call Callback β → Prop
  | .fault => False
  | _ => True

variable (hfilled : globals.players = filled.map some)
include hfilled

theorem playerAt_faultless {i : Nat} (hi : i < filled.length) :
    (playerAt i).Within Faultless (globals = ·) := by
  unfold playerAt
  apply Program.Within.get_bind
  rintro _ rfl
  have hslot : globals.players[i]?.join = some filled[i] := by
    rw [hfilled, List.getElem?_map, List.getElem?_eq_getElem hi]
    rfl
  rw [hslot]
  exact Program.Within.value _

theorem presentQuotes_faultless :
    (presentQuotes filled.length).Within Faultless (globals = ·) := by
  have hplayer : ∀ i ∈ List.range filled.length, (playerAt i).Within Faultless (globals = ·) :=
    fun i hi => playerAt_faultless hfilled (List.mem_range.mp hi)
  exact presentQuotes_within (fun _ => trivial) (fun _ => trivial) (fun _ => trivial)
    (fun _ _ => trivial) hplayer fun _ _ _ i hi =>
      Program.Within.bind (hplayer i hi) fun _ => Program.Within.issue trivial

end PresentQuotes

section Connect
variable {dep : Deployment} {before globals : Globals} {events : List (Event (Call Callback))}

/-- Wherever a connection stops: the table is in order, there was no fault, and quotes were shown
only if this connection has filled the last slot. -/
structure Fine (numPlayers : Nat) (before last : Globals) (events : List (Event (Call Callback))) :
    Prop where
  table : Table numPlayers last
  faultless : events.any faults = false
  presents : events.any showsQuote → ¬ Full numPlayers before ∧ Full numPlayers last

/-- Neither a fault nor a quote shown. -/
def Silent (events : List (Event (Call Callback))) : Prop :=
  events.any faults = false ∧ events.any showsQuote = false

theorem Silent.append (h : Silent events) {later : List (Event (Call Callback))}
    (hlater : Silent later) : Silent (events ++ later) := by
  constructor
  · rw [List.any_append, h.1, hlater.1]
    rfl
  · rw [List.any_append, h.2, hlater.2]
    rfl

theorem Quiet.silent {β : Type} {c : Call Callback β} (h : Quiet c) : Silent [.issued c] := by
  cases c with
  | fault => exact absurd h id
  | ocallPrintQuote => exact absurd h id
  | _ => exact ⟨rfl, rfl⟩

theorem Silent.fine {numPlayers : Nat} {last : Globals} (h : Silent events)
    (htable : Table numPlayers last) : Fine numPlayers before last events :=
  ⟨htable, h.1, fun hshows => absurd (h.2.symm.trans hshows) Bool.false_ne_true⟩

/-- The frame rule for code that shows nothing. -/
theorem quiet_fine {α : Type} {numPlayers : Nat} {p : Code α}
    {post : α → Globals → List (Event (Call Callback)) → Prop} (h : p.Within Quiet (SlotsKept before))
    (htable : Table numPlayers before) (hkept : SlotsKept before globals) (hsilent : Silent events)
    (hpost : ∀ value last events, SlotsKept before last → Silent events → post value last events) :
    wp (stopping (Fine numPlayers before)) post p globals events := by
  refine h.framed ?_ ?_ hkept hsilent hpost
  · intro β current events c hcurrent hquiet hsilent
    exact (hsilent.append hquiet.silent).fine (htable.of_kept hcurrent)
  · intro β c answer events hquiet hsilent
    exact (hsilent.append hquiet.silent).append ⟨rfl, rfl⟩

def Unfaulted (events : List (Event (Call Callback))) : Prop := events.any faults = false

theorem Unfaulted.append {later : List (Event (Call Callback))} (h : Unfaulted events)
    (hlater : Unfaulted later) : Unfaulted (events ++ later) := by
  unfold Unfaulted
  rw [List.any_append, h, hlater]
  rfl

theorem Faultless.unfaulted {β : Type} {c : Call Callback β} (h : Faultless c) :
    Unfaulted [.issued c] := by
  cases c with
  | fault => exact absurd h id
  | _ => rfl

/-- The frame rule for code without faults, once every slot is filled. -/
theorem full_fine {α : Type} {numPlayers : Nat} {p : Code α} (h : p.Within Faultless (globals = ·))
    (htable : Table numPlayers globals) (hopen : ¬ Full numPlayers before)
    (hfull : Full numPlayers globals) (hfaultless : Unfaulted events) :
    wp (stopping (Fine numPlayers before)) (fun _ => Fine numPlayers before) p globals events := by
  refine h.framed ?_ ?_ rfl hfaultless ?_
  · rintro β _ events c rfl hc hevents
    exact ⟨htable, hevents.append hc.unfaulted, fun _ => ⟨hopen, hfull⟩⟩
  · intro β c answer events hc hevents
    exact (hevents.append hc.unfaulted).append rfl
  · rintro value _ events rfl hevents
    exact ⟨htable, hevents, fun _ => ⟨hopen, hfull⟩⟩

theorem ecallConnectToPlayer_fine (htable : Table dep.build.numPlayers before) (context : Pointer) :
    wp (stopping (Fine dep.build.numPlayers before)) (fun _ => Fine dep.build.numPlayers before)
      (ecallConnectToPlayer dep context) before [] := by
  have hnone : Silent ([] : List (Event (Call Callback))) := ⟨rfl, rfl⟩
  simp only [ecallConnectToPlayer, wp_bind, wp_get, wp_ite, wp_pure]
  refine ⟨fun _ => hnone.fine htable, fun hconnected => ?_⟩
  have hopen : ¬ Full dep.build.numPlayers before := by
    rw [← htable.full_iff]
    simpa [allPlayersConnected] using hconnected
  refine quiet_fine learnQuotingEnclave_quiet htable ⟨rfl, rfl⟩ hnone ?_
  intro error last events hkept hsilent
  cases error with
  | some error => exact hsilent.fine (htable.of_kept hkept)
  | none =>
    have hadmitted : wp unmonitored (fun result _ _ => Admitted dep.build.numPlayers last result)
        (mutualAttestation dep.tcrypto dep.build.numPlayers context) last () :=
      mutualAttestation_admitted dep.tcrypto dep.build.numPlayers context
    have hframe : wp (stopping (Fine dep.build.numPlayers before))
        (fun _ last events => SlotsKept before last ∧ Silent events)
        (mutualAttestation dep.tcrypto dep.build.numPlayers context) last events :=
      quiet_fine (mutualAttestation_quiet _ _ _) htable hkept hsilent fun _ _ _ hkept hsilent =>
        ⟨hkept, hsilent⟩
    rw [wp_bind]
    refine wp_mono ?_ (wp_returns hadmitted hframe)
    intro result final events hresult
    obtain ⟨hplayer, hfinal, hsilent⟩ := hresult
    have htable' : Table dep.build.numPlayers final := htable.of_kept hfinal
    cases result with
    | none => exact hsilent.fine htable'
    | some player =>
      obtain ⟨hchannel, hid⟩ := hplayer player rfl
      have hid : playerIdOk dep.build.numPlayers final.players player.id := by
        rw [hfinal.1, ← hkept.1]
        exact hid
      have hadded : Table dep.build.numPlayers (added final player) := htable'.added hid hchannel
      simp only [addPlayer, wp_bind, wp_get, wp_ite, wp_modify, wp_pure]
      refine ⟨fun hrefused => ?_, fun _ => ⟨fun hall => ?_, fun _ => hsilent.fine hadded⟩⟩
      · rw [hid] at hrefused
        cases hrefused
      · have hfull : Full dep.build.numPlayers (added final player) :=
          hadded.full_iff.mp (of_decide_eq_true hall)
        obtain ⟨filled, hcount, hfilled⟩ := id hfull
        have hpresent : (presentQuotes dep.build.numPlayers).Within Faultless
            (added final player = ·) := hcount ▸ presentQuotes_faultless hfilled
        exact full_fine hpresent hadded hopen hfull hsilent.1

end Connect

section Others
variable {dep : Deployment} {globals : Globals}

/-- Neither the slots nor the stash change. -/
def SetupKept (before last : Globals) : Prop :=
  SlotsKept before last ∧ last.stash = before.stash

theorem SetupKept.refl (globals : Globals) : SetupKept globals globals := ⟨⟨rfl, rfl⟩, rfl⟩

theorem SetupKept.trans (first second third : Globals) (h : SetupKept first second)
    (h' : SetupKept second third) : SetupKept first third :=
  ⟨⟨h'.1.1.trans h.1.1, h'.1.2.trans h.1.2⟩, h'.2.trans h.2⟩

theorem setState_moves (state : State) : (setState state).Moves SetupKept globals :=
  Program.Moves.update ⟨⟨rfl, rfl⟩, rfl⟩

theorem ecallInitialize_moves (context : Pointer) :
    (ecallInitialize context).Moves SetupKept globals := by
  have hwallets : ∀ first second, WalletOnly globals first → WalletOnly globals second →
      SetupKept first second := by
    rintro _ _ ⟨_, rfl⟩ ⟨_, rfl⟩
    exact ⟨⟨rfl, rfl⟩, rfl⟩
  unfold ecallInitialize
  apply Program.Moves.get_bind
  split
  · exact Program.Moves.value _
  · apply Program.Moves.bind
    · exact .of_within (ecallInitializeImpl_within context) ⟨_, rfl⟩ hwallets
    intro ret last
    split
    · exact Program.Moves.bind (setState_moves _) fun _ _ => Program.Moves.value _
    · exact Program.Moves.value _

/-- The contract does not touch the setup. -/
theorem settlement_setup {before : Globals} : ∀ first second, SettlementOnly before first →
    SettlementOnly before second → SetupKept first second := by
  rintro _ _ ⟨_, _, rfl⟩ ⟨_, _, rfl⟩
  exact ⟨⟨rfl, rfl⟩, rfl⟩

theorem ecallClearContract_moves (context : Pointer)
    (payoutAddress collateralTransaction merklePaths : Bytes) :
    (ecallClearContract dep context payoutAddress collateralTransaction merklePaths).Moves
      SetupKept globals := by
  unfold ecallClearContract
  apply Program.Moves.get_bind
  split
  · exact Program.Moves.value _
  · apply Program.Moves.bind
    · exact .of_within (ecallClearContractImpl_within context payoutAddress collateralTransaction
        merklePaths) ⟨_, _, rfl⟩ settlement_setup
    intro ret last
    exact Program.Moves.bind (setState_moves _) fun _ _ => Program.Moves.value _

theorem ecallFinalize_moves (context : Pointer) :
    (ecallFinalize dep context).Moves SetupKept globals := by
  unfold ecallFinalize
  apply Program.Moves.get_bind
  split
  · exact Program.Moves.value _
  · apply Program.Moves.bind
    · exact .of_within (ecallFinalizeImpl_within context) ⟨_, _, rfl⟩ settlement_setup
    intro ret last
    exact Program.Moves.bind (setState_moves _) fun _ _ => Program.Moves.value _

theorem ecallRefund_moves (context : Pointer) (blocks : Bytes) :
    (ecallRefund dep context blocks).Moves SetupKept globals := by
  have hsame : ∀ first second, globals = first → globals = second → SetupKept first second := by
    rintro _ _ rfl rfl
    exact ⟨⟨rfl, rfl⟩, rfl⟩
  unfold ecallRefund
  apply Program.Moves.get_bind
  split
  · exact Program.Moves.value _
  · apply Program.Moves.bind
    · exact .of_within (ecallRefundImpl_sends dep context blocks) rfl hsame
    intro ret last
    split
    · exact Program.Moves.bind (setState_moves _) fun _ _ => Program.Moves.value _
    · exact Program.Moves.value _

theorem other_moves {op : Ecall} (hother : ∀ context, op ≠ .ecallConnectToPlayer context) :
    (handle dep op).Moves SetupKept globals := by
  cases op with
  | ecallConnectToPlayer context => exact absurd rfl (hother context)
  | ecallInitialize context => exact ecallInitialize_moves context
  | ecallClearContract context payoutAddress collateralTransaction merklePaths =>
    exact ecallClearContract_moves context payoutAddress collateralTransaction merklePaths
  | ecallFinalize context => exact ecallFinalize_moves context
  | ecallRefund context blocks => exact ecallRefund_moves context blocks

/-- The one assignment to a slot is to one that is empty. -/
theorem addPlayer_moves (numPlayers : Nat) (player : Player) :
    (addPlayer numPlayers player).Moves Extends globals := by
  unfold addPlayer
  apply Program.Moves.get_bind
  split
  · exact fun answer => Empty.elim answer
  · rename_i hid
    simp only [Bool.not_eq_true', Bool.not_eq_false, playerIdOk, Bool.and_eq_true] at hid
    exact Program.Moves.update (Extends.added hid.2)

theorem ecallConnectToPlayer_moves (context : Pointer) :
    (ecallConnectToPlayer dep context).Moves Extends globals := by
  have hkept : ∀ {state : Globals} first second, SlotsKept state first → SlotsKept state second →
      Extends first second := fun _ _ hfirst hsecond =>
    .of_kept (hsecond.1.trans hfirst.1.symm)
  have hpresent : ∀ {state : Globals},
      (presentQuotes dep.build.numPlayers).Within (fun _ => True) (SlotsKept state) :=
    presentQuotes_within (fun _ => trivial) (fun _ => trivial) (fun _ => trivial)
      (fun _ _ => trivial) (fun i _ => playerAt_within trivial i)
      (fun _ _ _ i _ => Program.Within.bind (playerAt_within trivial i) fun _ =>
        Program.Within.issue trivial)
  unfold ecallConnectToPlayer
  apply Program.Moves.get_bind
  split
  · exact Program.Moves.value _
  apply Program.Moves.bind (.of_within learnQuotingEnclave_quiet ⟨rfl, rfl⟩ hkept)
  intro error state
  split
  · exact Program.Moves.value _
  apply Program.Moves.bind (.of_within (mutualAttestation_quiet _ _ _) ⟨rfl, rfl⟩ hkept)
  intro player state
  split
  · apply Program.Moves.bind (addPlayer_moves _ _)
    intro _ state
    apply Program.Moves.get_bind
    split
    · exact .of_within hpresent ⟨rfl, rfl⟩ hkept
    · exact Program.Moves.value _
  · exact Program.Moves.value _

end Others

section Runs
variable {dep : Deployment}

theorem Extends.refl (globals : Globals) : Extends globals globals := fun _ _ h => h

theorem Extends.trans (first second third : Globals) (h : Extends first second)
    (h' : Extends second third) : Extends first third := fun j player hslot =>
  h' j player (h j player hslot)

theorem handle_moves (op : Ecall) (globals : Globals) : (handle dep op).Moves Extends globals := by
  cases op with
  | ecallConnectToPlayer context => exact ecallConnectToPlayer_moves context
  | _ => exact (other_moves (by simp)).mono fun _ _ h => .of_kept h.1.1

/-- One ECALL, whether it has returned or not. -/
theorem step_table {step : Step (enclave dep)} (htable : Table dep.build.numPlayers step.before)
    (valid : step.Valid) : Table dep.build.numPlayers step.after ∧
      (connects step → step.events.any faults = false) ∧
      (presentsQuotes step → ¬ Full dep.build.numPlayers step.before ∧
        Full dep.build.numPlayers step.after) := by
  obtain ⟨before, op, events, last, result⟩ := step
  let result : Option Int32 := result
  have hexec : Exec (handle dep op) before events last result := valid
  by_cases hconnect : ∃ context, op = .ecallConnectToPlayer context
  · obtain ⟨context, rfl⟩ := hconnect
    have hstopped := Exec.stopped hexec (ecallConnectToPlayer_fine htable context)
    have hfine : Fine dep.build.numPlayers before last events := by
      cases hresult : result with
      | none => exact hstopped.2 hresult
      | some ret => exact hstopped.1 ret hresult
    refine ⟨hfine.table, fun _ => hfine.faultless, fun hpresents => ?_⟩
    exact hfine.presents (Bool.and_eq_true_iff.mp hpresents).2
  · have hother : ∀ context, op ≠ .ecallConnectToPlayer context :=
      fun context hsame => hconnect ⟨context, hsame⟩
    have hkept : SetupKept before last :=
      (other_moves hother).reaches SetupKept.refl SetupKept.trans hexec
    have hsilent : connects (⟨before, op, events, last, result⟩ : Step (enclave dep)) = false := by
      cases op with
      | ecallConnectToPlayer context => exact absurd rfl (hother context)
      | _ => rfl
    refine ⟨htable.of_kept hkept.1, fun hconnects => ?_, fun hpresents => ?_⟩
    · exact absurd (hsilent.symm.trans hconnects) Bool.false_ne_true
    · exact absurd (hsilent.symm.trans (Bool.and_eq_true_iff.mp hpresents).1) Bool.false_ne_true

/-- What the ECALLs so far have left. -/
structure History (steps : List (Step (enclave dep))) (last : Globals) : Prop where
  table : Table dep.build.numPlayers last
  faultless : ∀ step ∈ steps, connects step → step.events.any faults = false
  once : steps.countP presentsQuotes ≤ 1
  full : 0 < steps.countP presentsQuotes → Full dep.build.numPlayers last

theorem History.next {steps : List (Step (enclave dep))} {step : Step (enclave dep)}
    (h : History steps step.before) (valid : step.Valid) : History (steps ++ [step]) step.after := by
  obtain ⟨htable, hfaultless, hpresents⟩ := step_table h.table valid
  have hextends : Extends step.before step.after :=
    (handle_moves step.op step.before).reaches Extends.refl Extends.trans valid
  have hcount : (steps ++ [step]).countP presentsQuotes =
      steps.countP presentsQuotes + (presentsQuotes step).toNat := by
    cases hstep : presentsQuotes step with
    | false => simp [List.countP_append, hstep]
    | true => simp [List.countP_append, hstep]
  have honce := h.once
  constructor
  · exact htable
  · intro other hother
    rcases List.mem_append.mp hother with hearlier | hlast
    · exact h.faultless other hearlier
    · exact List.mem_singleton.mp hlast ▸ hfaultless
  · rw [hcount]
    cases hstep : presentsQuotes step with
    | false => simpa using honce
    | true =>
      have hopen := (hpresents hstep).1
      have hnone : steps.countP presentsQuotes = 0 := by
        by_contra hsome
        exact hopen (h.full (Nat.pos_of_ne_zero hsome))
      rw [hnone]
      decide
  · rw [hcount]
    intro hsome
    cases hstep : presentsQuotes step with
    | false =>
      rw [hstep] at hsome
      exact hextends.full (h.full hsome) htable.length
    | true => exact (hpresents hstep).2

theorem initial_history : History ([] : List (Step (enclave dep))) (initial dep) := by
  constructor
  · constructor
    · exact List.length_replicate
    · simp [initial, List.countP_replicate]
    · intro j player hslot
      simp [initial, List.getElem?_replicate] at hslot
  · exact List.forall_mem_nil _
  · exact Nat.zero_le _
  · exact fun hsome => absurd hsome (Nat.lt_irrefl 0)

theorem run_history {steps : List (Step (enclave dep))} {last : Globals}
    (run : Run (enclave dep) (initial dep) steps last) : History steps last := by
  induction run with
  | start => exact initial_history
  | next _ valid _ ih => exact ih.next valid

theorem trace_history {steps : List (Step (enclave dep))} {last : Globals}
    (trace : Trace (enclave dep) (initial dep) steps last) : History steps last := by
  cases trace with
  | resting run => exact run_history run
  | inside run valid _ => exact (run_history run).next valid

/-- At every moment of every run the table is in order; no connection faults; at most one presents
the quotes, and from then on every slot is filled; and whatever fills a slot at one moment fills
it at every later one. -/
theorem player_table (dep : Deployment) {steps : List (Step (enclave dep))} {last : Globals}
    (trace : Trace (enclave dep) (initial dep) steps last) :
    Table dep.build.numPlayers last ∧
      (∀ step ∈ steps, connects step → step.events.any faults = false) ∧
      steps.countP presentsQuotes ≤ 1 ∧
      (0 < steps.countP presentsQuotes → Full dep.build.numPlayers last) ∧
      ∀ (earlier : List (Step (enclave dep))) (before : Globals),
        Trace (enclave dep) (initial dep) earlier before → Precedes earlier steps →
          Extends before last := by
  have hhistory := trace_history trace
  refine ⟨hhistory.table, hhistory.faultless, hhistory.once, hhistory.full, ?_⟩
  intro earlier before hearlier hprecedes
  exact hearlier.between Extends.refl Extends.trans handle_moves trace hprecedes

theorem player_table_played : Table 3 contractState ∧
    contractSteps.countP presentsQuotes ≤ 1 ∧ Full 3 contractState := by
  obtain ⟨htable, _, honce, hfull, _⟩ := player_table zeroDeployment (.resting contractSteps_run)
  have hpresented : 0 < contractSteps.countP presentsQuotes := by decide +kernel
  exact ⟨htable, honce, hfull hpresented⟩

end Runs

end Auntie.Guarantees.PlayerTable
