import Auntie.Guarantees.OperatorSetup
import Auntie.Guarantees.QuoteFile
import Auntie.Source.Player.Entry
import Mathlib.Data.List.InsertIdx
import Mathlib.Data.List.Nodup

/-!
# Which quotes a player's host checks

The quotes go from the slots of the operator through its broadcast, the player's enclave, the
file of its host and the script that reads it. What the quote checker is given at player `k` are
the quotes of all the other players in the order of the slots, under the measurement of the
player's enclave, and the operator's quote under that of the operator's.
-/

namespace Auntie.Guarantees.QuoteDistribution
open Auntie.Source Auntie.Interaction Segments

section Broadcast
variable {msg : ReceivedMessage} {quotes : List (ReportData × Bytes)}

theorem offsets_length (quotes : List (ReportData × Bytes)) :
    ((offsetsFrom 0 (quotes.map Prod.snd)).flatMap (leBytes 4)).length = 4 * quotes.length := by
  rw [table_length _ (leBytes_length 4), offsetsFrom_length, List.length_map]

theorem reportData_length (quotes : List (ReportData × Bytes)) :
    (quotes.flatMap (·.1.val)).length = 64 * quotes.length :=
  table_length _ (fun entry => entry.1.property) quotes

theorem encode_length (quotes : List (ReportData × Bytes)) :
    (QuotesBroadcast.encode quotes).length =
      68 * quotes.length + (quotes.map Prod.snd).flatten.length := by
  rw [QuotesBroadcast.encode, List.length_append, List.length_append, reportData_length,
    offsets_length]
  omega

variable (h : msg.payload = QuotesBroadcast.encode quotes)
include h

theorem reportData_eq {i : Nat} (hi : i < quotes.length) :
    QuotesBroadcast.reportData msg i = quotes[i].1 := by
  have hpayload : msg.payload = [] ++ quotes.flatMap (·.1.val) ++
      ((offsetsFrom 0 (quotes.map Prod.snd)).flatMap (leBytes 4) ++
        (quotes.map Prod.snd).flatten) := by
    rw [h, QuotesBroadcast.encode, List.nil_append, List.append_assoc]
  have hread : msg.read (0 + 64 * i) 64 = ((quotes.flatMap (·.1.val)).drop (64 * i)).take 64 :=
    ReceivedMessage.read_part hpayload rfl (by rw [reportData_length]; omega)
  rw [cut_entry (fun entry : ReportData × Bytes => entry.1.val) (fun entry => entry.1.property) _ i hi,
    Nat.zero_add] at hread
  exact Subtype.ext hread

theorem quoteOffset_eq {i : Nat} (hi : i < quotes.length) :
    QuotesBroadcast.quoteOffset quotes.length msg i =
      ((quotes.map Prod.snd).take i).flatten.length := by
  have hsize := msg.size_lt
  have hle := offset_le (quotes.map Prod.snd) i
  have htable : i < (offsetsFrom 0 (quotes.map Prod.snd)).length := by simpa using hi
  have hentry := cut_entry (leBytes 4) (leBytes_length 4) _ i htable
  rw [h, encode_length] at hsize
  rw [offsetsFrom_getElem, Nat.zero_add] at hentry
  rw [QuotesBroadcast.quoteOffset, ReceivedMessage.readU32,
    ReceivedMessage.read_part h (reportData_length quotes) (by rw [offsets_length]; omega), hentry,
    leValue_leBytes, Nat.mod_eq_of_lt (by omega)]

/-- The end of a quote is where the next one starts, or the end of the payload. -/
theorem quoteEnd_eq {i : Nat} (hi : i < quotes.length) :
    QuotesBroadcast.quoteEnd quotes.length msg i =
      ((quotes.map Prod.snd).take (i + 1)).flatten.length := by
  have hsize := msg.size_lt
  rw [h, encode_length] at hsize
  unfold QuotesBroadcast.quoteEnd QuotesBroadcast.sizeof
  by_cases hlast : i + 1 < quotes.length
  · rw [if_pos hlast, quoteOffset_eq h hlast]
  · have hall : (quotes.map Prod.snd).take (i + 1) = quotes.map Prod.snd :=
      List.take_of_length_le (by rw [List.length_map]; omega)
    rw [if_neg hlast, h, encode_length, sub64_of_le (by omega) (by omega), hall,
      Nat.mod_eq_of_lt (by omega)]
    omega

theorem quote_eq {i : Nat} (hi : i < quotes.length) :
    QuotesBroadcast.quote quotes.length msg i = quotes[i].2 := by
  have hsize := msg.size_lt
  have hi' : i < (quotes.map Prod.snd).length := by simpa using hi
  have hnext := offset_succ (quotes.map Prod.snd) i hi'
  have hle := offset_le (quotes.map Prod.snd) (i + 1)
  have hpayload : msg.payload = (quotes.flatMap (·.1.val) ++
      (offsetsFrom 0 (quotes.map Prod.snd)).flatMap (leBytes 4)) ++
        (quotes.map Prod.snd).flatten ++ [] := by
    rw [h, QuotesBroadcast.encode, List.append_nil]
  have hfront : (quotes.flatMap (·.1.val) ++
      (offsetsFrom 0 (quotes.map Prod.snd)).flatMap (leBytes 4)).length =
      QuotesBroadcast.sizeof quotes.length := by
    rw [List.length_append, reportData_length, offsets_length, QuotesBroadcast.sizeof]
    omega
  have hlength : (quotes.map Prod.snd)[i].length = quotes[i].2.length := by rw [List.getElem_map]
  rw [h, encode_length] at hsize
  rw [QuotesBroadcast.quote, quoteEnd_eq h hi, quoteOffset_eq h hi,
    sub32_of_le (by omega) (by omega), hnext, Nat.add_sub_cancel_left,
    ReceivedMessage.read_part hpayload hfront (by omega), cut_segment _ i hi', List.getElem_map]

end Broadcast

section Prints
variable {Callback : Type}

def printed {β : Type} : Call Callback β → β → List ((Bytes × ReportData) × Int32)
  | .ocallPrintQuote quote reportData, ret => [((quote, reportData), ret)]
  | _, _ => []

/-- The quotes presented to the host, each with what the host returned. -/
def printsOf (events : List (Event (Call Callback))) : List ((Bytes × ReportData) × Int32) :=
  events.flatMap fun
    | .answered c answer => printed c answer
    | .issued _ => []

theorem printsOf_append (first second : List (Event (Call Callback))) :
    printsOf (first ++ second) = printsOf first ++ printsOf second := List.flatMap_append

/-- A call that presents no quote. -/
def PrintsNothing {β : Type} : Call Callback β → Prop
  | .ocallPrintQuote _ _ => False
  | _ => True

theorem PrintsNothing.events {β : Type} {c : Call Callback β} (h : PrintsNothing c) (answer : β) :
    printsOf [.issued c, .answered c answer] = [] := by
  cases c with
  | ocallPrintQuote => exact absurd h id
  | _ => rfl

theorem prints_of_handshake {β : Type} (c : Call Callback β) (h : c.Handshake) :
    PrintsNothing c := by
  cases c with
  | ocallPrintQuote => exact absurd h id
  | _ => trivial

/-- The rule for code that presents no quote. -/
theorem quiet_tape {σ α : Type} {keeps : σ → Prop} {p : Program (Call Callback) σ α} {state : σ}
    {earlier : List (Event (Call Callback))} {post : α → σ → List (Event (Call Callback)) → Prop}
    (h : p.Within PrintsNothing keeps) (hstate : keeps state)
    (hpost : ∀ value last events, keeps last → printsOf events = printsOf earlier →
      post value last events) : wp tape post p state earlier := by
  have hknows : ∀ {β : Type} (c : Call Callback β) (answer : β)
      (events : List (Event (Call Callback))),
      PrintsNothing c → printsOf events = printsOf earlier →
        printsOf (events ++ [.issued c] ++ [.answered c answer]) = printsOf earlier := by
    intro β c answer events hc hevents
    rw [List.append_assoc, printsOf_append, hevents]
    exact (congrArg _ (hc.events answer)).trans (List.append_nil _)
  exact h.wp (fun _ _ _ _ _ => trivial) hknows hstate rfl hpost

end Prints

section Player
open Source.Player
open Program (Within)
variable {globals : Globals}

theorem mutualAttestation_silent (tcrypto : Tcrypto) (context : Pointer)
    (quotingEnclave : TargetInfo) (id : Nat) :
    (mutualAttestation tcrypto context quotingEnclave id).Within PrintsNothing fun _ => True :=
  mutualAttestation_within prints_of_handshake (fun _ _ _ => trivial) (fun _ => trivial)
    (fun _ _ _ _ => trivial) trivial (fun _ => trivial) context quotingEnclave id

/-- What the quotes of a broadcast are presented as, the own one skipped. -/
def presented (numPlayers playerId : Nat) (msg : ReceivedMessage) (indices : List Nat) :
    List (Bytes × ReportData) :=
  (indices.filter (· ≠ sub32 playerId 1)).map fun i =>
    (QuotesBroadcast.quote numPlayers msg i, QuotesBroadcast.reportData msg i)

theorem printPlayersQuotes_prints (numPlayers playerId : Nat) (msg : ReceivedMessage)
    (indices : List Nat) :
    wp tape (fun error last events => last = globals ∧ error ≠ some 0 ∧ (error = none →
        printsOf events = (presented numPlayers playerId msg indices).map (·, 0)))
      (printPlayersQuotes numPlayers playerId msg indices) globals [] := by
  induction indices with
  | nil => exact ⟨rfl, (by simp), fun _ => rfl⟩
  | cons i rest ih =>
    simp only [printPlayersQuotes, wp_ite, wp_bind, wp_tape_issue, wp_pure]
    refine ⟨fun hown => ?_, fun hother ret => ⟨fun _ _ => ⟨trivial, by decide, (by simp)⟩, fun hret => ?_⟩⟩
    · refine wp_mono ?_ ih
      rintro error last events ⟨hlast, herror, hprints⟩
      refine ⟨hlast, herror, fun hnone => ?_⟩
      rw [hprints hnone, presented, presented, List.filter_cons_of_neg (by simp [hown])]
    · refine wp_tape_from ih ?_
      rintro error last events ⟨hlast, herror, hprints⟩
      refine ⟨hlast, herror, fun hnone => ?_⟩
      rw [printsOf_append, hprints hnone, not_not.mp hret, presented, presented,
        List.filter_cons_of_pos (by simp [hother])]
      rfl

/-- The player has presented the quotes of a broadcast and then that of the operator. -/
def Prints (numPlayers playerId : Nat) (operator : Operator)
    (events : List (Event (Call Callback))) : Prop :=
  ∃ msg : ReceivedMessage, msg.msgType = msgPlayersQuotesBroadcast ∧
    .answered (.auntieMsgReceive operator.channel) (some msg) ∈ events ∧
    printsOf events = (presented numPlayers playerId msg (List.range numPlayers) ++
      [(operator.quote.contents, operator.reportData)]).map (·, 0)

theorem presentQuotes_prints (numPlayers playerId : Nat) (operator : Operator) :
    wp tape (fun ret last events => last = globals ∧
        (ret = 0 → Prints numPlayers playerId operator events))
      (presentQuotes numPlayers operator playerId) globals [] := by
  simp only [presentQuotes, wp_bind, wp_tape_issue]
  intro msg1
  cases msg1 with
  | none => exact ⟨rfl, fun h => absurd h eio_error⟩
  | some quotes =>
    simp only [wp_ite, wp_bind, wp_tape_issue, wp_pure]
    refine ⟨fun _ _ => ⟨trivial, fun h => absurd h eio_error⟩, fun htype => ?_⟩
    refine wp_tape_from (printPlayersQuotes_prints numPlayers playerId quotes _) ?_
    rintro error last shown ⟨rfl, herror, hprinted⟩
    cases error with
    | some error => exact ⟨rfl, fun h => absurd (congrArg some h) herror⟩
    | none =>
      simp only [wp_bind, wp_tape_issue, wp_ite, wp_pure]
      intro _ ret
      refine ⟨fun _ => ⟨trivial, fun h => absurd h eio_error⟩, fun hret msg2 => ?_⟩
      cases msg2 with
      | none => exact ⟨rfl, fun h => absurd h enomem_error⟩
      | some msg2 =>
        simp only [wp_bind, wp_tape_issue, wp_ite, wp_pure]
        intro sent _
        refine ⟨fun hsent => ⟨trivial, fun h => absurd h hsent⟩, fun _ msg3 => ?_⟩
        cases msg3 with
        | none => exact ⟨rfl, fun h => absurd h eio_error⟩
        | some complete =>
          simp only [wp_bind, wp_tape_issue, wp_ite, wp_pure]
          refine ⟨fun _ _ => ⟨trivial, fun h => absurd h eio_error⟩, fun _ _ => ⟨trivial, fun _ => ?_⟩⟩
          refine ⟨quotes, not_not.mp htype, by simp, ?_⟩
          simp only [printsOf_append, hprinted rfl, not_not.mp hret, List.map_append]
          simp [printsOf, printed]

/-- A connection that returns zero has presented the quotes it received. -/
theorem ecallConnectToOperator_prints (dep : Deployment) (context : Pointer) (playerId : Nat) :
    wp tape (fun ret last events => ret = 0 → ∃ operator, last.operator = some operator ∧
        Prints dep.build.numPlayers playerId operator events)
      (ecallConnectToOperator dep context playerId) globals [] := by
  simp only [ecallConnectToOperator, ecallConnectToOperatorImpl, wp_bind, wp_get, wp_ite, wp_pure,
    wp_tape_issue]
  refine ⟨fun _ h => absurd h ebusy_error, fun _ answer => ⟨fun hret h => absurd h hret, fun _ => ?_⟩⟩
  refine quiet_tape (mutualAttestation_silent dep.tcrypto context answer.2 playerId) trivial ?_
  intro operator last events _ hnone
  rw [wp_modify]
  cases operator with
  | none => exact fun h => absurd h eio_error
  | some operator =>
    rw [wp_bind]
    refine wp_tape_from (presentQuotes_prints dep.build.numPlayers playerId operator) ?_
    rintro ret _ shown ⟨rfl, hprints⟩
    simp only [wp_ite, wp_bind, wp_tape_issue, wp_modify, wp_pure]
    refine ⟨fun hret _ _ _ h => absurd h hret, fun hret _ => ⟨operator, rfl, ?_⟩⟩
    obtain ⟨msg, htype, hreceived, hshown⟩ := hprints (not_not.mp hret)
    refine ⟨msg, htype, List.mem_append_right _ hreceived, ?_⟩
    rw [printsOf_append, hnone, hshown]
    rfl

end Player

section Operator
open Source.Operator OperatorSetup
open Program (Within)
variable {dep : Deployment} {globals : Globals} {msgs : List Message}

/-- The broadcasts a call sends. -/
def broadcastIn {β : Type} : Call Callback β → List Message
  | .auntieMsgSend msg _ => if msg.msgType = msgPlayersQuotesBroadcast then [msg] else []
  | _ => []

/-- The message holds the report data and the quotes of the slots. -/
def HoldsSlots (numPlayers : Nat) (globals : Globals) (msg : Message) : Prop :=
  ∃ filled : List Player, filled.length = numPlayers ∧ globals.players = filled.map some ∧
    msg = .ofPayload msgPlayersQuotesBroadcast (QuotesBroadcast.encode
      (filled.map fun player => (player.reportData, player.quote.contents)))

/-- Every broadcast so far holds what the slots hold. -/
def broadcasting (dep : Deployment) : Observer (enclave dep) (List Message) where
  host := {
    issued msgs c := msgs ++ broadcastIn c
    safe current msgs c := ∀ msg ∈ msgs ++ broadcastIn c,
      HoldsSlots dep.build.numPlayers current msg }

structure Broadcasts (dep : Deployment) (globals : Globals) (msgs : List Message) : Prop where
  slots : Slots dep.build.numPlayers globals
  held : ∀ msg ∈ msgs, HoldsSlots dep.build.numPlayers globals msg

theorem HoldsSlots.of_kept {numPlayers : Nat} {before last : Globals} {msg : Message}
    (h : HoldsSlots numPlayers before msg) (hkept : SlotsKept before last) :
    HoldsSlots numPlayers last msg := by
  obtain ⟨filled, hlength, hfilled, hmsg⟩ := h
  exact ⟨filled, hlength, hkept.1.trans hfilled, hmsg⟩

theorem Broadcasts.of_kept {last : Globals} (h : Broadcasts dep globals msgs)
    (hkept : SlotsKept globals last) : Broadcasts dep last msgs :=
  ⟨h.slots.of_kept hkept, fun msg hmsg => (h.held msg hmsg).of_kept hkept⟩

theorem slots_of_settlement (last : Globals) (h : SettlementOnly globals last) :
    SlotsKept globals last := by
  obtain ⟨_, _, rfl⟩ := h
  exact ⟨rfl, rfl⟩

theorem broadcastIn_sends {types : List Nat} (htypes : msgPlayersQuotesBroadcast ∉ types)
    {β : Type} {c : Call Callback β} (h : c.Sends types) : broadcastIn c = [] := by
  cases c with
  | auntieMsgSend msg channel =>
    refine if_neg fun htype => htypes ?_
    rw [← htype]
    exact h
  | _ => rfl

/-- Code that sends no broadcast and leaves the slots alone. -/
theorem quiet_broadcasting {α : Type} {types : List Nat} {keeps : Globals → Prop} {p : Code α}
    {post : α → Globals → List Message → Prop} (h : p.Within (Call.Sends types) keeps)
    (htypes : msgPlayersQuotesBroadcast ∉ types)
    (hkept : ∀ last, keeps last → SlotsKept globals last) (hm : Broadcasts dep globals msgs)
    (hpost : ∀ value last, keeps last → post value last msgs) {state : Globals}
    (hstate : keeps state) : wp (broadcasting dep).host post p state msgs := by
  induction p generalizing state with
  | pure value => exact hpost value state hstate
  | get next ih => exact ih state (h state hstate) hstate
  | set state' next ih => exact ih h.2 h.1
  | call c next ih =>
    have hnone : msgs ++ broadcastIn c = msgs := by
      rw [broadcastIn_sends htypes h.1, List.append_nil]
    refine ⟨fun msg hmsg => ?_, fun answer => ?_⟩
    · rw [hnone] at hmsg
      exact (hm.of_kept (hkept state hstate)).held msg hmsg
    · change wp (broadcasting dep).host post (next answer) state (msgs ++ broadcastIn c)
      rw [hnone]
      exact ih answer (h.2 answer) hstate

theorem learnQuotingEnclave_sends :
    learnQuotingEnclave.Within (Call.Sends []) (SlotsKept globals) :=
  learnQuotingEnclave_within trivial fun _ _ _ => id

/-- Of the broadcasts, the call sends this one at most. -/
def SendsOnly (msg : Message) {β : Type} (c : Call Callback β) : Prop :=
  ∀ other ∈ broadcastIn c, other = msg

theorem holding_broadcasting {α : Type} {p : Code α} {msg : Message}
    (h : p.Within (SendsOnly msg) (globals = ·)) (hmsg : HoldsSlots dep.build.numPlayers globals msg)
    (hm : Broadcasts dep globals msgs) :
    wp (broadcasting dep).host (fun _ last msgs => Broadcasts dep last msgs) p globals msgs := by
  induction p generalizing msgs with
  | pure value => exact hm
  | get next ih => exact ih globals (h globals rfl) hm
  | set state next ih =>
    obtain ⟨rfl, hnext⟩ := h
    exact ih hnext hm
  | call c next ih =>
    have hheld : ∀ other ∈ msgs ++ broadcastIn c, HoldsSlots dep.build.numPlayers globals other := by
      intro other hother
      rcases List.mem_append.mp hother with hother | hother
      · exact hm.held other hother
      · rw [h.1 other hother]
        exact hmsg
    exact ⟨hheld, fun answer => ih answer (h.2 answer) ⟨hm.slots, hheld⟩⟩

/-- With all slots filled, what is presented is what the slots hold. -/
theorem presentQuotes_broadcasts {filled : List Player}
    (hfilled : globals.players = filled.map some) (hlength : filled.length = dep.build.numPlayers)
    (hm : Broadcasts dep globals msgs) :
    wp (broadcasting dep).host (fun _ last msgs => Broadcasts dep last msgs)
      (presentQuotes dep.build.numPlayers) globals msgs := by
  have hindices : Occupied filled (List.range filled.length) := fun i => List.mem_range.mp
  have hquotes := filterMap_range (filled.map fun player => (player.reportData, player.quote.contents))
  simp only [List.length_map, List.getElem?_map] at hquotes
  generalize hmsg : Message.ofPayload msgPlayersQuotesBroadcast (QuotesBroadcast.encode
    (filled.map fun player => (player.reportData, player.quote.contents))) = msg
  have hholds : HoldsSlots dep.build.numPlayers globals msg := ⟨filled, hlength, hfilled, hmsg.symm⟩
  have hsilent : ∀ {β : Type} (c : Call Callback β), c.Sends [] → SendsOnly msg c := by
    intro β c hc other hother
    rw [broadcastIn_sends (by simp) hc] at hother
    cases hother
  have hreceive : ∀ channel, SendsOnly msg (.auntieMsgReceive channel) :=
    fun _ => hsilent _ trivial
  have hfree : ∀ address, SendsOnly msg (.free address) := fun _ => hsilent _ trivial
  have hplayer : ∀ i ∈ List.range filled.length,
      (playerAt i).Within (SendsOnly msg) (globals = ·) :=
    fun i _ => playerAt_within (hsilent .fault trivial) i
  have hsend : ∀ channel, SendsOnly msg (.auntieMsgSend msg channel) := by
    intro channel other hother
    rw [← hmsg] at hother ⊢
    exact List.mem_singleton.mp hother
  have hcomplete : ∀ channel,
      SendsOnly msg (.auntieMsgSend (.ofPayload msgSetupComplete []) channel) :=
    fun _ _ h => by cases h
  rw [← hlength]
  simp only [presentQuotes, wp_bind]
  have hquiet : (printQuotes (List.range filled.length)).Within (Call.Sends []) (globals = ·) :=
    printQuotes_within (fun i _ => playerAt_within trivial i) fun _ _ => trivial
  refine quiet_broadcasting hquiet (by simp) ?_ hm ?_ rfl
  · rintro last rfl
    exact ⟨rfl, rfl⟩
  · rintro error last rfl
    cases error with
    | some error => exact hm
    | none =>
      simp only [wp_bind]
      rw [collectQuotes_spec hfilled hindices, hquotes, hmsg, ← wp_bind]
      refine holding_broadcasting ?_ hholds hm
      repeat' with_reducible first
        | exact broadcast_within _ fun i hi =>
            Within.bind (hplayer i hi) fun _ => Within.issue (hsend _)
        | exact broadcast_within _ fun i hi =>
            Within.bind (hplayer i hi) fun _ => Within.issue (hcomplete _)
        | exact receiveAcknowledgements_within hplayer hreceive hfree
        | intro _
        | apply Within.issue
        | apply Within.value
        | apply Within.bind
        | split
      all_goals exact hsilent _ trivial

theorem Broadcasts.none_of_open (hm : Broadcasts dep globals msgs)
    (hopen : globals.playersConnected ≠ dep.build.numPlayers) : msgs = [] := by
  refine List.eq_nil_iff_forall_not_mem.mpr fun msg hmsg => hopen ?_
  obtain ⟨filled, hlength, hfilled, -⟩ := hm.held msg hmsg
  rw [hm.slots.connected, hfilled, ← hlength]
  exact List.countP_map.trans (List.countP_eq_length.mpr fun _ _ => rfl) |>.trans rfl

/-- Every broadcast of a connection holds the slots it has filled. -/
theorem ecallConnectToPlayer_broadcasts (context : Pointer) (hm : Broadcasts dep globals msgs) :
    wp (broadcasting dep).host (fun _ last msgs => Broadcasts dep last msgs)
      (ecallConnectToPlayer dep context) globals msgs := by
  simp only [ecallConnectToPlayer, wp_bind, wp_get, wp_ite, wp_pure]
  refine ⟨fun _ => hm, fun hopen => ?_⟩
  obtain rfl : msgs = [] := hm.none_of_open (by simpa [allPlayersConnected] using hopen)
  refine quiet_broadcasting learnQuotingEnclave_sends (by simp) (fun _ => id) hm ?_ ⟨rfl, rfl⟩
  intro error last hkept
  cases error with
  | some error => exact hm.of_kept hkept
  | none =>
    have hstash : ∀ (last : Globals) stash, SlotsKept globals last →
        SlotsKept globals { last with stash := stash } := fun _ _ h => h
    rw [wp_bind]
    refine quiet_broadcasting (mutualAttestation_sends hstash dep.tcrypto dep.build.numPlayers context)
      (by simp) (fun _ => id) hm ?_ hkept
    intro player last hkept
    cases player with
    | none => exact hm.of_kept hkept
    | some player =>
      simp only [addPlayer, wp_bind, wp_get, wp_ite, wp_modify, wp_fault]
      refine ⟨(fun _ _ h => by cases h), fun hid => ?_⟩
      simp only [Bool.not_eq_true', Bool.not_eq_false] at hid
      have hadded := (hm.slots.of_kept hkept).add hid
      simp only [wp_pure]
      refine ⟨fun hall => ?_, fun _ => ⟨hadded, (by simp)⟩⟩
      obtain ⟨filled, hlength, hfilled⟩ := hadded.filled (of_decide_eq_true hall)
      exact presentQuotes_broadcasts hfilled hlength ⟨hadded, (by simp)⟩

theorem initial_broadcasts (dep : Deployment) : Broadcasts dep (initial dep) [] := by
  refine ⟨⟨List.length_replicate, ?_⟩, (by simp)⟩
  exact (List.countP_eq_zero.mpr (by simp [initial])).symm

/-- One step: every ECALL leaves the broadcasts and the slots in agreement. -/
theorem enclave_broadcasts (op : Ecall) (hm : Broadcasts dep globals msgs) :
    (broadcasting dep).Preserves (Broadcasts dep) op globals msgs := by
  cases op with
  | ecallConnectToPlayer context => exact ecallConnectToPlayer_broadcasts context hm
  | ecallInitialize context =>
    change wp (broadcasting dep).host (fun _ last msgs => Broadcasts dep last msgs)
      (ecallInitialize context) globals msgs
    have hwithin : (ecallInitializeImpl context).Within (Call.Sends []) (WalletOnly globals) :=
      (ecallInitializeImpl_within context).mono fun _ hc => hc.sends not_false
    have hkept : ∀ last, WalletOnly globals last → SlotsKept globals last := by
      rintro _ ⟨_, rfl⟩
      exact ⟨rfl, rfl⟩
    simp only [ecallInitialize, setState, wp_bind, wp_get, wp_ite, wp_pure, wp_modify]
    refine ⟨fun _ => hm, fun _ => quiet_broadcasting hwithin (by simp) hkept hm ?_ ⟨_, rfl⟩⟩
    intro ret last hlast
    exact ⟨fun _ => hm.of_kept (hkept last hlast), fun _ => hm.of_kept (hkept last hlast)⟩
  | ecallClearContract context payoutAddress collateralTransaction merklePaths =>
    change wp (broadcasting dep).host (fun _ last msgs => Broadcasts dep last msgs)
      (ecallClearContract dep context payoutAddress collateralTransaction merklePaths) globals msgs
    simp only [ecallClearContract, setState, wp_bind, wp_get, wp_ite, wp_pure, wp_modify]
    refine ⟨fun _ => hm, fun _ => ?_⟩
    refine quiet_broadcasting (ecallClearContractImpl_within context payoutAddress
      collateralTransaction merklePaths) (by simp) slots_of_settlement hm ?_ ⟨_, _, rfl⟩
    exact fun ret last hlast => hm.of_kept (slots_of_settlement last hlast)
  | ecallFinalize context =>
    change wp (broadcasting dep).host (fun _ last msgs => Broadcasts dep last msgs)
      (ecallFinalize dep context) globals msgs
    simp only [ecallFinalize, setState, wp_bind, wp_get, wp_ite, wp_pure, wp_modify]
    refine ⟨fun _ => hm, fun _ => ?_⟩
    refine quiet_broadcasting (ecallFinalizeImpl_within context) (by simp) slots_of_settlement hm
      ?_ ⟨_, _, rfl⟩
    exact fun ret last hlast => hm.of_kept (slots_of_settlement last hlast)
  | ecallRefund context blocks =>
    change wp (broadcasting dep).host (fun _ last msgs => Broadcasts dep last msgs)
      (ecallRefund dep context blocks) globals msgs
    have hkept : ∀ last, globals = last → SlotsKept globals last := by
      rintro _ rfl
      exact ⟨rfl, rfl⟩
    simp only [ecallRefund, setState, wp_bind, wp_get, wp_ite, wp_pure, wp_modify]
    refine ⟨fun _ => hm, fun _ => ?_⟩
    refine quiet_broadcasting (ecallRefundImpl_sends dep context blocks) (by simp) hkept hm ?_ rfl
    intro ret last hlast
    exact ⟨fun _ => hm.of_kept (hkept last hlast), fun _ => hm.of_kept (hkept last hlast)⟩

theorem mem_observed {log : List (Entry (enclave dep))} {msg : Message} {channel : ChannelRef}
    (htype : msg.msgType = msgPlayersQuotesBroadcast)
    (h : .host (.issued (.auntieMsgSend msg channel)) ∈ log) :
    msg ∈ log.foldl (broadcasting dep).observe msgs := by
  have hkept : ∀ (log : List (Entry (enclave dep))) (msgs : List Message), msg ∈ msgs →
      msg ∈ log.foldl (broadcasting dep).observe msgs := by
    intro log
    induction log with
    | nil => exact fun _ => id
    | cons entry log ih =>
      intro msgs hmem
      refine ih _ ?_
      rcases entry with op | (c | ⟨c, answer⟩) | ⟨op, ret⟩
      · exact hmem
      · exact List.mem_append_left _ hmem
      · exact hmem
      · exact hmem
  obtain ⟨before, after, rfl⟩ := List.append_of_mem h
  rw [List.foldl_append, List.foldl_cons]
  refine hkept after _ (List.mem_append_right _ ?_)
  rw [broadcastIn, if_pos htype]
  exact List.mem_singleton.mpr rfl

/-- Every broadcast the operator has sent by the end of a trace holds what its slots hold. -/
theorem broadcast_holds_slots {steps : List (Step (enclave dep))} {state : Globals}
    (trace : Trace (enclave dep) (initial dep) steps state) {msg : Message} {channel : ChannelRef}
    (htype : msg.msgType = msgPlayersQuotesBroadcast)
    (hsent : .host (.issued (.auntieMsgSend msg channel)) ∈ logOf steps) :
    HoldsSlots dep.build.numPlayers state msg := by
  have hstep : ∀ op globals msgs, True → Broadcasts dep globals msgs →
      (broadcasting dep).Preserves (Broadcasts dep) op globals msgs :=
    fun op _ _ _ hm => enclave_broadcasts op hm
  have hended := trace.ended (fun _ _ => trivial) (initial_broadcasts dep) hstep
  rcases hended with hinv | ⟨before, β, c, hlog, hsafe⟩
  · exact hinv.held msg (mem_observed htype hsent)
  · have hmem : msg ∈ (logOf steps).foldl (broadcasting dep).observe [] := mem_observed htype hsent
    rw [hlog, List.foldl_append] at hmem
    exact hsafe msg hmem

end Operator

section EndToEnd
open QuoteFile
open Source.Host (quotesHost checkQuotesAsPlayer Script)
variable {dep : Deployment}

theorem map_range_getElem {α β : Type} (l : List α) (f : Nat → β) (g : α → β)
    (h : ∀ (i : Nat) (hi : i < l.length), f i = g l[i]) : (List.range l.length).map f = l.map g := by
  refine List.ext_getElem (by simp) fun i hi _ => ?_
  simp only [List.getElem_map, List.getElem_range]
  exact h i (by simpa using hi)

/-- Skipping one index leaves the others in their order. -/
theorem filter_range_ne {n j : Nat} (hj : j < n) :
    (List.range n).filter (· ≠ j) = (List.range n).eraseIdx j := by
  have hj' : j < (List.range n).length := by simpa using hj
  have herase := List.Nodup.erase_getElem (List.nodup_range (n := n)) j hj'
  rw [List.getElem_range, List.Nodup.erase_eq_filter List.nodup_range] at herase
  rw [← herase]
  exact List.filter_congr fun i _ => by simp [bne, beq_eq_decide]

/-- What the host of a player prints of another one. -/
def shownOf (player : Source.Operator.Player) : Bytes × ReportData :=
  (player.quote.contents, player.reportData)

/-- The size of the broadcast for the slots. -/
def broadcastSize (globals : Source.Operator.Globals) : Nat :=
  (globals.players.map fun
    | some player => 68 + player.quote.contents.length
    | none => 0).sum

theorem broadcastSize_filled {globals : Source.Operator.Globals}
    {filled : List Source.Operator.Player} (hfilled : globals.players = filled.map some) :
    broadcastSize globals = (QuotesBroadcast.encode
      (filled.map fun player => (player.reportData, player.quote.contents))).length := by
  rw [encode_length, broadcastSize, hfilled]
  clear hfilled
  induction filled with
  | nil => rfl
  | cons player filled ih =>
    simp only [List.map_cons, List.sum_cons, ih, List.length_cons, List.flatten_cons,
      List.length_append]
    omega

theorem quote_le_total {filled : List Source.Operator.Player} {player : Source.Operator.Player}
    (h : player ∈ filled) : player.quote.contents.length ≤ (QuotesBroadcast.encode
      (filled.map fun player => (player.reportData, player.quote.contents))).length := by
  obtain ⟨before, after, rfl⟩ := List.append_of_mem h
  rw [encode_length]
  simp only [List.map_append, List.map_cons, List.flatten_append, List.flatten_cons,
    List.length_append]
  omega

/-- A player shows the slots of the broadcast in their order, its own left out. -/
theorem presented_slots {msg : ReceivedMessage} {filled : List Source.Operator.Player} {k : Nat}
    (hpayload : msg.payload = QuotesBroadcast.encode
      (filled.map fun player => (player.reportData, player.quote.contents)))
    (hk : 1 ≤ k) (hle : k ≤ filled.length) :
    presented filled.length k msg (List.range filled.length) =
      (filled.eraseIdx (k - 1)).map shownOf := by
  have hsize := msg.size_lt
  rw [hpayload, encode_length, List.length_map] at hsize
  have hskip : sub32 k 1 = k - 1 := sub32_of_le hk (by omega)
  have hshown : (List.range filled.length).map (fun i =>
      (QuotesBroadcast.quote filled.length msg i, QuotesBroadcast.reportData msg i)) =
      filled.map shownOf := by
    refine map_range_getElem filled _ _ fun i hi => ?_
    have hi' : i < (filled.map fun player => (player.reportData, player.quote.contents)).length := by
      simpa using hi
    have hquote := quote_eq hpayload hi'
    rw [List.length_map] at hquote
    rw [hquote, reportData_eq hpayload hi', List.getElem_map]
    rfl
  rw [presented, hskip, filter_range_ne (by omega), ← List.eraseIdx_map, hshown, List.eraseIdx_map]

/-- A connection that returns zero has shown a broadcast and the operator's quote. -/
theorem prints_of_connection {dep : Deployment} {step : Step (Source.Player.enclave dep)}
    (valid : step.Valid) {context : Pointer} {k : Nat}
    (hop : step.op = Source.Player.Ecall.ecallConnectToOperator context k)
    (hresult : step.result = some (0 : Int32)) : ∃ operator,
      step.after.operator = some operator ∧ Prints dep.build.numPlayers k operator step.events := by
  obtain ⟨before, op, events, after, result⟩ := step
  cases hop
  cases hresult
  exact Exec.taped valid (ecallConnectToOperator_prints dep context k) rfl

/-- The file a connection leaves: the quotes of the other players as the operator has stored them,
in order, and the operator's. -/
theorem file_of_connection {k : Nat}
    {operatorSteps : List (Step (Source.Operator.enclave dep))}
    {operatorState : Source.Operator.Globals}
    (trace : Trace (Source.Operator.enclave dep) (Source.Operator.initial dep) operatorSteps
      operatorState)
    {registered : Source.Operator.Player} (hk : 1 ≤ k)
    (hregistered : operatorState.players[k - 1]? = some (some registered))
    {step : Step (Source.Player.enclave dep)} (valid : step.Valid) {context : Pointer}
    (hop : step.op = Source.Player.Ecall.ecallConnectToOperator context k)
    (hresult : step.result = some (0 : Int32)) {operator : Source.Player.Operator}
    (hoperator : step.after.operator = some operator)
    (hdelivered : ∀ msg : ReceivedMessage,
      .answered (.auntieMsgReceive operator.channel) (some msg) ∈ step.events →
        .host (.issued (.auntieMsgSend msg.toMessage registered.channel)) ∈ logOf operatorSteps)
    (hsize : broadcastSize operatorState < 2 ^ 32)
    {hostSteps : List (Step quotesHost)} {text : List Char}
    (host : Run quotesHost (some []) hostSteps (some text))
    (hprints : servedBy hostSteps = (printsOf step.events).map fun shown => (shown.1, some shown.2)) :
    ∃ filled : List Source.Operator.Player, filled.length = dep.build.numPlayers ∧
      operatorState.players = filled.map some ∧
      text = fileOf ((filled.eraseIdx (k - 1)).map (fun player =>
        (player.reportData.val, player.quote.contents)) ++
          [(operator.reportData.val, operator.quote.contents)]) := by
  obtain ⟨other, hother, msg, htype, hreceived, hprinted⟩ :=
    prints_of_connection valid hop hresult
  cases hother.symm.trans hoperator
  obtain ⟨filled, hlength, hfilled, hmsg⟩ :=
    broadcast_holds_slots trace htype (hdelivered msg hreceived)
  have hle : k ≤ filled.length := by
    have hlt := (List.getElem?_eq_some_iff.mp hregistered).1
    rw [hfilled, List.length_map] at hlt
    omega
  have htotal := broadcastSize_filled hfilled
  have hpayload : msg.payload = QuotesBroadcast.encode
      (filled.map fun player => (player.reportData, player.quote.contents)) := by
    rw [hmsg]
    exact Message.ofPayload_payload (htotal ▸ hsize)
  rw [← hlength, presented_slots hpayload hk hle] at hprinted
  have hserved : servedBy hostSteps = ((filled.eraseIdx (k - 1)).map shownOf ++
      [(operator.quote.contents, operator.reportData)]).map (·, some 0) := by
    rw [hprints, hprinted, List.map_map]
    rfl
  have hfile := Option.some.inj (file_of_served host hserved)
  have hentries : ((filled.eraseIdx (k - 1)).map shownOf ++
      [(operator.quote.contents, operator.reportData)]).map entryOf =
      (filled.eraseIdx (k - 1)).map (fun player =>
        (player.reportData.val, player.quote.contents)) ++
        [(operator.reportData.val, operator.quote.contents)] := by
    rw [List.map_append, List.map_map]
    rfl
  exact ⟨filled, hlength, hfilled, by rw [hfile, hentries]⟩

/-- What the quote checker is given at the player `k`: the quotes of the other players as the
operator has stored them, in order, and the operator's. -/
theorem quotes_checked (dep : Deployment) {k : Nat}
    {operatorSteps : List (Step (Source.Operator.enclave dep))}
    {operatorState : Source.Operator.Globals}
    (trace : Trace (Source.Operator.enclave dep) (Source.Operator.initial dep) operatorSteps
      operatorState)
    {registered : Source.Operator.Player} (hk : 1 ≤ k)
    (hregistered : operatorState.players[k - 1]? = some (some registered))
    {step : Step (Source.Player.enclave dep)} (valid : step.Valid) {context : Pointer}
    (hop : step.op = Source.Player.Ecall.ecallConnectToOperator context k)
    (hresult : step.result = some (0 : Int32)) {operator : Source.Player.Operator}
    (hoperator : step.after.operator = some operator)
    (hdelivered : ∀ msg : ReceivedMessage,
      .answered (.auntieMsgReceive operator.channel) (some msg) ∈ step.events →
        .host (.issued (.auntieMsgSend msg.toMessage registered.channel)) ∈ logOf operatorSteps)
    (hsize : broadcastSize operatorState + operator.quote.contents.length < 2 ^ 32)
    {hostSteps : List (Step quotesHost)} {text : List Char}
    (host : Run quotesHost (some []) hostSteps (some text))
    (hprints : servedBy hostSteps = (printsOf step.events).map fun shown => (shown.1, some shown.2))
    {playerMrenclave operatorMrenclave : Bytes} {events : List (Event Script)} {ok : Bool}
    (hchecks : Exec checkQuotesAsPlayer () events () (some ok))
    (hhonours : (checking playerMrenclave operatorMrenclave text).Honours [] events) :
    ok = true ∧ ∃ filled : List Source.Operator.Player, filled.length = dep.build.numPlayers ∧
      operatorState.players = filled.map some ∧
      written events = (partiesOf playerMrenclave operatorMrenclave
        ((filled.eraseIdx (k - 1)).map fun player =>
          (player.reportData.val, player.quote.contents))
        (operator.reportData.val, operator.quote.contents)).flatMap request := by
  obtain ⟨filled, hlength, hfilled, hfile⟩ := file_of_connection trace hk hregistered valid hop
    hresult hoperator hdelivered (by omega) host hprints
  have htotal := broadcastSize_filled hfilled
  rw [hfile] at hhonours
  have hquotes : ∀ entry ∈ (filled.eraseIdx (k - 1)).map (fun player =>
      (player.reportData.val, player.quote.contents)) ++
        [(operator.reportData.val, operator.quote.contents)], entry.2.length < 2 ^ 32 := by
    intro entry hentry
    rcases List.mem_append.mp hentry with hentry | hentry
    · obtain ⟨player, hplayer, rfl⟩ := List.mem_map.mp hentry
      have hquote := quote_le_total (List.mem_of_mem_eraseIdx hplayer)
      change player.quote.contents.length < 2 ^ 32
      omega
    · rw [List.mem_singleton.mp hentry]
      change operator.quote.contents.length < 2 ^ 32
      omega
  obtain ⟨hok, hwritten⟩ := checked_of_exec hquotes hchecks hhonours
  exact ⟨hok, filled, hlength, hfilled, hwritten⟩

end EndToEnd

section Examples
open QuoteFile
open Source.Host (quotesHost checkQuotesAsPlayer Script Libc playerBinary operatorBinary quoteOk)

/-- The first of three players connects. -/
def connectStep : Step (Source.Player.enclave zeroDeployment) :=
  playStep (Source.Player.enclave zeroDeployment) Source.Player.contractHost 0
    Source.Player.initial (.ecallConnectToOperator 0 1)

/-- `fprintf` writes all it is given. -/
def printingHost {β : Type} (_ : Nat) : Libc β → Option β
  | .fprintf text => some (Int32.ofNat text.length)

def printedSteps : List (Step quotesHost) :=
  playRun quotesHost printingHost 0 (some []) ((printsOf connectStep.events).map Prod.fst)

def printedText : List Char := (lastState quotesHost (some []) printedSteps).getD []

/-- A quote checker that accepts. -/
def acceptingHost {β : Type} (_ : Nat) : Script β → Option β
  | .getMrenclave enclaveBinary => some (some (if enclaveBinary = playerBinary then [1] else [2]))
  | .read => some (some printedText)
  | .write _ => some ()
  | .readline => some quoteOk

def checkedEvents : List (Event Script) := (play acceptingHost 0 checkQuotesAsPlayer ()).1

theorem acceptingHost_honours : (checking [1] [2] printedText).Honours [] checkedEvents := by
  refine Contract.honours_of_answers fun c answer hmem _ => ?_
  obtain ⟨time, hanswer⟩ := play_answered hmem
  cases c with
  | getMrenclave enclaveBinary =>
    cases hanswer
    refine ⟨fun hplayer => by rw [if_pos hplayer], fun hoperator => ?_⟩
    rw [if_neg (by rw [hoperator]; decide)]
  | read => exact (Option.some.inj hanswer).symm
  | write => trivial
  | readline => exact (Option.some.inj hanswer).symm

def connectedOperator : Source.Player.Operator :=
  ⟨1, ((ChannelRef.create 0).assignId 0).encrypt (FixedBytes.zero 16), ⟨1, [1]⟩, FixedBytes.zero 64⟩

def registeredChannel : ChannelRef :=
  ((ChannelRef.create 1).assignId 1).encrypt (FixedBytes.zero 16)

theorem registered_first : ∃ registered, registered.channel = registeredChannel ∧
    Source.Operator.contractState.players[1 - 1]? = some (some registered) := by
  have hchannel : Source.Operator.contractState.players[1 - 1]?.join.map (·.channel) =
      some registeredChannel := by decide +kernel
  obtain ⟨registered, hslot, hsame⟩ := Option.map_eq_some_iff.mp hchannel
  exact ⟨registered, hsame, Option.join_eq_some_iff.mp hslot⟩

theorem printedSteps_run : Run quotesHost (some []) printedSteps (some printedText) := by
  have hopen : (lastState quotesHost (some []) printedSteps).isSome := by decide +kernel
  have hrun : Run quotesHost (some []) printedSteps (lastState quotesHost (some []) printedSteps) :=
    run_playRun quotesHost printingHost (some []) _ (by decide +kernel)
  obtain ⟨text, htext⟩ := Option.isSome_iff_exists.mp hopen
  rw [printedText, htext]
  rwa [htext] at hrun

theorem printed_served : servedBy printedSteps =
    (printsOf connectStep.events).map fun shown => (shown.1, some shown.2) := by
  decide +kernel

theorem connectStep_delivered {registered : Source.Operator.Player}
    (hchannel : registered.channel = registeredChannel) (msg : ReceivedMessage)
    (hmsg : .answered (.auntieMsgReceive connectedOperator.channel) (some msg) ∈
      connectStep.events) :
    .host (.issued (.auntieMsgSend msg.toMessage registered.channel)) ∈
      logOf Source.Operator.contractSteps := by
  have hreceived : (arrivedIn connectStep.events).all (fun (channel, msg) =>
      channel ≠ connectedOperator.channel ||
        (sentIn (eventsOf Source.Operator.contractSteps)).contains
          (msg.toMessage, registeredChannel)) = true := by
    decide +kernel
  have hsent := List.all_eq_true.mp hreceived _ (mem_arrivedIn.mpr hmsg)
  simp only [ne_eq, not_true_eq_false, decide_false, Bool.false_or] at hsent
  obtain ⟨step, hstep, hevent⟩ :=
    List.mem_flatMap.mp (mem_sentIn.mp (List.contains_iff_mem.mp hsent))
  rw [hchannel]
  exact mem_logOf_issued hstep hevent

theorem quotes_checked_played :
    ∃ filled : List Source.Operator.Player, filled.length = 3 ∧
      Source.Operator.contractState.players = filled.map some ∧
      written checkedEvents = (partiesOf [1] [2]
        ((filled.eraseIdx 0).map fun player => (player.reportData.val, player.quote.contents))
        (connectedOperator.reportData.val, connectedOperator.quote.contents)).flatMap request := by
  obtain ⟨registered, hchannel, hregistered⟩ := registered_first
  have hresult : (play acceptingHost 0 checkQuotesAsPlayer ()).2.2 = some true := by decide +kernel
  have hchecks : Exec checkQuotesAsPlayer () checkedEvents () (some true) := by
    have hexec := exec_play acceptingHost 0 checkQuotesAsPlayer ()
    rw [hresult, Subsingleton.elim (play acceptingHost 0 checkQuotesAsPlayer ()).2.1 ()] at hexec
    exact hexec
  exact (quotes_checked zeroDeployment (.resting Source.Operator.contractSteps_run) (by decide)
    hregistered (playStep_valid _ _ _ _ _ : connectStep.Valid) rfl rfl rfl
    (connectStep_delivered hchannel) (by decide +kernel) printedSteps_run printed_served hchecks
    acceptingHost_honours).2

end Examples

end Auntie.Guarantees.QuoteDistribution
