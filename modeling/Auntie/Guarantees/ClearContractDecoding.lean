import Auntie.Guarantees.OperatorSetup
import Auntie.Source.Player.Entry

/-!
# Clear-contract messages decoded by a player

The operator's enclave puts the hashes of the settlement, the output for the player and the
deposit transactions of all parties in one payload. The player's enclave finds each of them by
the offsets in it: the ranges it reads tile what follows the offsets, and it stores and shows
what the operator put there.
-/

namespace Auntie.Guarantees.ClearContractDecoding
open Auntie.Source Auntie.Interaction Segments
open Blocks (Digest)

section Payload

/-- Ranges, each an offset and a length, that lie next to each other from `start` to `stop`. -/
def Tiles (stop : Nat) : Nat → List (Nat × Nat) → Prop
  | start, [] => start = stop
  | start, (offset, length) :: ranges => offset = start ∧ Tiles stop (start + length) ranges

/-- The ranges of segments stored one after the other. -/
def rangesFrom (start : Nat) : List Bytes → List (Nat × Nat)
  | [] => []
  | segment :: rest => (start, segment.length) :: rangesFrom (start + segment.length) rest

theorem tiles_rangesFrom (start : Nat) (segments : List Bytes) :
    Tiles (start + segments.flatten.length) start (rangesFrom start segments) := by
  induction segments generalizing start with
  | nil => rfl
  | cons segment rest ih =>
    have hrest := ih (start + segment.length)
    rw [Nat.add_assoc, ← List.length_append, ← List.flatten_cons] at hrest
    exact ⟨rfl, hrest⟩

theorem rangesFrom_eq (start : Nat) (segments : List Bytes) :
    rangesFrom start segments = (List.range segments.length).map fun i =>
      (start + (segments.take i).flatten.length, (segments[i]?.getD []).length) := by
  induction segments generalizing start with
  | nil => rfl
  | cons segment rest ih =>
    rw [rangesFrom, ih, List.length_cons, List.range_succ_eq_map, List.map_cons, List.map_map]
    simp [Function.comp_def, Nat.add_assoc]

/-- The ranges `ecall_get_deposits_impl` reads after the offsets: the output and the deposit
transactions. -/
def ranges (numPlayers : Nat) (msg : ReceivedMessage) : List (Nat × Nat) :=
  (ClearContract.sizeof numPlayers + ClearContract.outputOffset msg, ClearContract.outputLength msg) ::
    (List.range numPlayers).map (fun i =>
      (ClearContract.sizeof numPlayers + ClearContract.depositTransactionsOffset msg i,
        sub32 (ClearContract.depositTransactionsOffset msg (i + 1))
          (ClearContract.depositTransactionsOffset msg i))) ++
    [(ClearContract.sizeof numPlayers + ClearContract.depositTransactionsOffset msg numPlayers,
      sub64 (sub64 msg.payload.length (ClearContract.sizeof numPlayers))
        (ClearContract.depositTransactionsOffset msg numPlayers))]

/-- What it reads there. -/
def contents (numPlayers : Nat) (msg : ReceivedMessage) : List Bytes :=
  ClearContract.output numPlayers msg ::
    (List.range numPlayers).map (ClearContract.depositTransaction numPlayers msg) ++
    [ClearContract.lastDepositTransaction numPlayers msg]

theorem contents_eq (numPlayers : Nat) (msg : ReceivedMessage) :
    contents numPlayers msg = (ranges numPlayers msg).map fun range => msg.read range.1 range.2 := by
  rw [ranges, List.map_append, List.map_cons, List.map_map]
  rfl

variable {numPlayers : Nat} {msg : ReceivedMessage} {sighash txid : Digest} {output : Bytes}
  {depositTransactions : List Bytes}

/-- The offsets of the deposit transactions follow that of the output. -/
theorem depositTransactionsOffset_table (msg : ReceivedMessage) (i : Nat) :
    ClearContract.depositTransactionsOffset msg i = msg.readU32 (64 + 4 * (i + 1)) := by
  have hoffset : 68 + 4 * i = 64 + 4 * (i + 1) := by omega
  rw [ClearContract.depositTransactionsOffset, hoffset]

theorem encode_length : (ClearContract.encode sighash txid output depositTransactions).length =
    68 + 4 * depositTransactions.length + (output :: depositTransactions).flatten.length := by
  rw [ClearContract.encode, List.length_append, List.length_append, List.length_append,
    sighash.property, txid.property, table_length _ (leBytes_length 4), offsetsFrom_length,
    List.length_cons]
  omega

variable (hpayload : msg.payload = ClearContract.encode sighash txid output depositTransactions)
include hpayload

theorem settlementSighash_eq : ClearContract.settlementSighash msg = sighash := by
  have hparts : msg.payload = [] ++ sighash.val ++ (txid.val ++
      (offsetsFrom 0 (output :: depositTransactions)).flatMap (fun offset => leBytes 4 offset) ++
      (output :: depositTransactions).flatten) := by
    rw [hpayload, ClearContract.encode]
    simp only [List.nil_append, List.append_assoc]
  exact Subtype.ext (ReceivedMessage.read_field hparts rfl sighash.property)

theorem settlementTxid_eq : ClearContract.settlementTxid msg = txid := by
  have hparts : msg.payload = sighash.val ++ txid.val ++
      ((offsetsFrom 0 (output :: depositTransactions)).flatMap (fun offset => leBytes 4 offset) ++
      (output :: depositTransactions).flatten) := by
    rw [hpayload, ClearContract.encode]
    simp only [List.append_assoc]
  exact Subtype.ext (ReceivedMessage.read_field hparts sighash.property txid.property)

/-- The entries of the offset table, that of the output first. -/
theorem offset_eq {j : Nat} (hj : j < depositTransactions.length + 1) :
    msg.readU32 (64 + 4 * j) = ((output :: depositTransactions).take j).flatten.length := by
  have hsize := msg.size_lt
  have hle := offset_le (output :: depositTransactions) j
  have hfront : (sighash.val ++ txid.val).length = 64 := by
    rw [List.length_append, sighash.property, txid.property]
  have htable : j < (offsetsFrom 0 (output :: depositTransactions)).length := by simpa using hj
  have hentry := cut_entry (leBytes 4) (leBytes_length 4) _ j htable
  have hinside : 4 * j + 4 ≤ ((offsetsFrom 0 (output :: depositTransactions)).flatMap
      (leBytes 4)).length := by
    rw [table_length _ (leBytes_length 4), offsetsFrom_length, List.length_cons]
    omega
  rw [hpayload, encode_length] at hsize
  rw [offsetsFrom_getElem, Nat.zero_add] at hentry
  rw [ReceivedMessage.readU32, ReceivedMessage.read_part hpayload hfront hinside, hentry,
    leValue_leBytes, Nat.mod_eq_of_lt (by omega)]

theorem depositTransactionsOffset_eq {i : Nat} (hi : i < depositTransactions.length) :
    ClearContract.depositTransactionsOffset msg i =
      ((output :: depositTransactions).take (i + 1)).flatten.length := by
  rw [depositTransactionsOffset_table, offset_eq hpayload (by omega)]

/-- A range that ends where the next one starts. -/
theorem between_offsets {j : Nat} (hj : j + 1 < depositTransactions.length + 1) :
    sub32 (msg.readU32 (64 + 4 * (j + 1))) (msg.readU32 (64 + 4 * j)) =
      ((output :: depositTransactions)[j]?.getD []).length := by
  have hsize := msg.size_lt
  have hj' : j < (output :: depositTransactions).length := by simpa using by omega
  have hnext := offset_succ (output :: depositTransactions) j hj'
  have hle := offset_le (output :: depositTransactions) (j + 1)
  rw [hpayload, encode_length] at hsize
  rw [offset_eq hpayload hj, offset_eq hpayload (by omega), sub32_of_le (by omega) (by omega), hnext,
    List.getElem?_eq_getElem hj', Option.getD_some, Nat.add_sub_cancel_left]

/-- The last range ends with the payload. -/
theorem last_length (hcount : depositTransactions.length = numPlayers + 1) :
    sub64 (sub64 msg.payload.length (ClearContract.sizeof numPlayers))
      (ClearContract.depositTransactionsOffset msg numPlayers) =
      ((output :: depositTransactions)[numPlayers + 1]?.getD []).length := by
  have hsize := msg.size_lt
  have hle := offset_le (output :: depositTransactions) (numPlayers + 1)
  have hlast := offset_last (output :: depositTransactions) (numPlayers + 1) (by simp [hcount])
  have hheader : ClearContract.sizeof numPlayers = 68 + 4 * depositTransactions.length := by
    rw [ClearContract.sizeof, hcount]
  rw [hpayload, encode_length] at hsize
  have hdata : sub64 msg.payload.length (ClearContract.sizeof numPlayers) =
      (output :: depositTransactions).flatten.length := by
    rw [hpayload, encode_length, hheader, sub64_of_le (by omega) (by omega), Nat.add_sub_cancel_left]
  rw [depositTransactionsOffset_eq hpayload (by omega), hdata, sub64_of_le hle (by omega), hlast,
    Nat.add_sub_cancel_left, List.getElem?_eq_getElem (by simp [hcount]), Option.getD_some]

/-- The ranges are those of the segments the operator has stored. -/
theorem ranges_eq (hcount : depositTransactions.length = numPlayers + 1) :
    ranges numPlayers msg =
      rangesFrom (ClearContract.sizeof numPlayers) (output :: depositTransactions) := by
  have hsize := msg.size_lt
  rw [hpayload, encode_length, List.flatten_cons, List.length_append] at hsize
  have hstart : ClearContract.outputOffset msg = 0 := offset_eq hpayload (Nat.succ_pos _)
  have hfirst : ClearContract.outputLength msg = output.length := by
    rw [ClearContract.outputLength, hstart, depositTransactionsOffset_eq hpayload (by omega),
      sub32_of_le (Nat.zero_le _) (by simp; omega)]
    simp
  have hbetween : ∀ i, i < numPlayers →
      sub32 (ClearContract.depositTransactionsOffset msg (i + 1))
        (ClearContract.depositTransactionsOffset msg i) =
        ((output :: depositTransactions)[i + 1]?.getD []).length := by
    intro i hi
    rw [depositTransactionsOffset_table, depositTransactionsOffset_table,
      between_offsets hpayload (by omega)]
  rw [rangesFrom_eq, List.length_cons, hcount, List.range_succ_eq_map, List.map_cons, List.map_map,
    List.range_succ, List.map_append, ranges, hstart, hfirst, last_length hpayload hcount,
    depositTransactionsOffset_eq hpayload (by omega)]
  have hmiddle : (List.range numPlayers).map (fun i =>
      (ClearContract.sizeof numPlayers + ClearContract.depositTransactionsOffset msg i,
        sub32 (ClearContract.depositTransactionsOffset msg (i + 1))
          (ClearContract.depositTransactionsOffset msg i))) =
      (List.range numPlayers).map ((fun i => (ClearContract.sizeof numPlayers +
        ((output :: depositTransactions).take i).flatten.length,
        ((output :: depositTransactions)[i]?.getD []).length)) ∘ Nat.succ) := by
    refine List.map_congr_left fun i hi => ?_
    have hi := List.mem_range.mp hi
    rw [hbetween i hi, depositTransactionsOffset_eq hpayload (by omega)]
    rfl
  rw [hmiddle]
  rfl

/-- What is read is what the operator has stored. -/
theorem contents_of_encode (hcount : depositTransactions.length = numPlayers + 1) :
    contents numPlayers msg = output :: depositTransactions := by
  have hsegments : (output :: depositTransactions).length = numPlayers + 2 := by simp [hcount]
  have hfront : (sighash.val ++ txid.val ++ (offsetsFrom 0 (output :: depositTransactions)).flatMap
      (fun offset => leBytes 4 offset)).length = ClearContract.sizeof numPlayers := by
    rw [List.length_append, List.length_append, sighash.property, txid.property,
      table_length _ (leBytes_length 4), offsetsFrom_length, hsegments, ClearContract.sizeof]
    omega
  have hparts : msg.payload = (sighash.val ++ txid.val ++ (offsetsFrom 0
      (output :: depositTransactions)).flatMap (fun offset => leBytes 4 offset)) ++
        (output :: depositTransactions).flatten ++ [] := by
    rw [hpayload, ClearContract.encode, List.append_nil]
  rw [contents_eq, ranges_eq hpayload hcount, rangesFrom_eq, List.map_map, hsegments]
  refine List.ext_getElem (by simp [hcount]) fun i hi hi' => ?_
  have hnext := offset_succ (output :: depositTransactions) i hi'
  have hle := offset_le (output :: depositTransactions) (i + 1)
  have hread := ReceivedMessage.read_part hparts hfront
    (show ((output :: depositTransactions).take i).flatten.length +
      (output :: depositTransactions)[i].length ≤ (output :: depositTransactions).flatten.length by
        omega)
  rw [cut_segment _ i hi'] at hread
  rw [List.getElem_map, List.getElem_range, Function.comp_apply, List.getElem?_eq_getElem hi',
    Option.getD_some]
  exact hread

end Payload

section Player
open Source.Player
open Program (Within)
variable {globals : Globals}

def shown {β : Type} : Call Callback β → List Bytes
  | .callback (.ocallGetDeposits _ depositTransaction) => [depositTransaction]
  | _ => []

/-- The deposit transactions handed to the host. -/
def shownIn (events : List (Event (Call Callback))) : List Bytes :=
  events.flatMap fun
    | .issued c => shown c
    | .answered _ _ => []

@[simp] theorem shownIn_append (first second : List (Event (Call Callback))) :
    shownIn (first ++ second) = shownIn first ++ shownIn second := List.flatMap_append

theorem outputDeposits_shows (build : Build) (context : Pointer) (msg : ReceivedMessage)
    (indices : List Nat) :
    wp tape (fun error last events => last = globals ∧ arrivedIn events = [] ∧ error ≠ some 0 ∧
        (error = none → shownIn events =
          indices.map (ClearContract.depositTransaction build.numPlayers msg)))
      (outputDeposits build context msg indices) globals [] := by
  induction indices with
  | nil => exact ⟨rfl, rfl, (by simp), fun _ => rfl⟩
  | cons i rest ih =>
    simp only [outputDeposits, wp_bind, wp_tape_issue, wp_ite, wp_pure]
    intro ret
    constructor
    · intro hret
      exact ⟨trivial, rfl, fun h => hret (Option.some.inj h), (by simp)⟩
    · intro _
      refine wp_tape_from ih ?_
      rintro error last events ⟨hlast, hnone, herror, hshown⟩
      refine ⟨hlast, by rw [arrivedIn_append, hnone]; rfl, herror, fun h => ?_⟩
      rw [shownIn_append, hshown h]
      rfl

/-- What a player keeps of a clear-contract message, and shows. -/
structure Took (numPlayers : Nat) (channel : ChannelRef) (msg : ReceivedMessage) (last : Globals)
    (events : List (Event (Call Callback))) : Prop where
  msgType : msg.msgType = msgClearContract
  arrived : arrivedIn events = [(channel, msg)]
  settlementSighash : last.settlementSighash = ClearContract.settlementSighash msg
  settlementTxid : last.settlementTxid = ClearContract.settlementTxid msg
  outputLength : last.functionalityOutputLength = ClearContract.outputLength msg
  output : ∀ output, last.functionalityOutput = some output →
    output.contents = ClearContract.output numPlayers msg
  shown : shownIn events =
    (List.range numPlayers).map (ClearContract.depositTransaction numPlayers msg) ++
      [ClearContract.lastDepositTransaction numPlayers msg]

/-- The last deposit is shown outside the loop; whatever that callback returns, the call
returns zero. -/
theorem outputAllDeposits_took (build : Build) (context : Pointer) {msg : ReceivedMessage}
    {output : Buffer} {channel : ChannelRef} {earlier : List (Event (Call Callback))}
    (htype : msg.msgType = msgClearContract) (hearlier : arrivedIn earlier = [(channel, msg)])
    (hshown : shownIn earlier = [])
    (hsighash : globals.settlementSighash = ClearContract.settlementSighash msg)
    (htxid : globals.settlementTxid = ClearContract.settlementTxid msg)
    (hlength : globals.functionalityOutputLength = ClearContract.outputLength msg)
    (hstored : globals.functionalityOutput = some output)
    (houtput : output.contents = ClearContract.output build.numPlayers msg) :
    wp tape (fun ret last events => ret = 0 → Took build.numPlayers channel msg last events)
      (outputAllDeposits build context msg output) globals earlier := by
  simp only [outputAllDeposits, dropOutput, wp_bind]
  refine wp_tape_from (outputDeposits_shows build context msg _) ?_
  rintro error last events ⟨rfl, hquiet, hzero, hevents⟩
  cases error with
  | some error =>
    simp only [wp_bind, wp_tape_issue, wp_modify, wp_pure]
    exact fun _ _ h => absurd (congrArg some h) hzero
  | none =>
    have hdeposits := hevents rfl
    simp only [wp_bind, wp_tape_issue, wp_ite, wp_modify, wp_pure]
    intro ret _
    constructor
    · intro _ _ _
      refine ⟨htype, ?_, hsighash, htxid, hlength, (by simp), ?_⟩
      · simp only [arrivedIn_append, hearlier, hquiet]
        rfl
      · simp only [shownIn_append, hshown, hdeposits]
        simp [shownIn, ClearContractDecoding.shown]
    · intro _ _
      refine ⟨htype, ?_, hsighash, htxid, hlength, ?_, ?_⟩
      · simp only [arrivedIn_append, hearlier, hquiet]
        rfl
      · intro other hother
        rw [← Option.some.inj (hstored.symm.trans hother)]
        exact houtput
      · simp only [shownIn_append, hshown, hdeposits]
        simp [shownIn, ClearContractDecoding.shown]

/-- A call that returns zero has received one clear-contract message; it keeps the hashes and
the output of that, and has shown its deposit transactions. -/
theorem ecallGetDepositsImpl_took (build : Build) (context : Pointer) :
    wp tape (fun ret last events => ret = 0 → ∃ operator msg, globals.operator = some operator ∧
        Took build.numPlayers operator.channel msg last events)
      (ecallGetDepositsImpl build context) globals [] := by
  simp only [ecallGetDepositsImpl, wp_bind, wp_get]
  cases hoperator : globals.operator with
  | none => exact wp_deref_none.mpr trivial
  | some operator =>
    simp only [wp_deref_some, wp_tape_issue]
    intro msg
    cases msg with
    | none => exact fun h => absurd h eio_error
    | some msg =>
      simp only [wp_bind, wp_tape_issue, wp_ite, wp_pure, wp_modify]
      constructor
      · exact fun _ _ h => absurd h eio_error
      · intro htype address
        cases address with
        | none =>
          simp only [wp_bind, wp_tape_issue, wp_modify, wp_pure]
          exact fun _ h => absurd h enomem_error
        | some address =>
          simp only [wp_bind, wp_modify]
          refine wp_mono ?_ (outputAllDeposits_took build context (not_not.mp htype) rfl rfl rfl rfl
            rfl rfl rfl)
          exact fun ret last events h hret => ⟨operator, msg, rfl, h hret⟩

end Player

section Operator
open Source.Operator
open Program (Within)
variable {globals : Globals}

/-- A message sent is the clear-contract message for the player whose channel it goes to. -/
def Builds (numPlayers : Nat) (globals : Globals) (sighash txid : Digest)
    (outputs depositTransactions : List Bytes) {β : Type} : Call Callback β → Prop
  | .auntieMsgSend msg channel => ∃ i player, i < numPlayers ∧
      globals.players[i]?.join = some player ∧ player.channel = channel ∧
      msg = .ofPayload msgClearContract
        (ClearContract.encode sighash txid (outputs.getD i []) depositTransactions)
  | _ => True

def building (numPlayers : Nat) (globals : Globals) (sighash txid : Digest)
    (outputs depositTransactions : List Bytes) : Monitor (Call Callback) Globals Unit where
  safe _ _ c := Builds numPlayers globals sighash txid outputs depositTransactions c

theorem sendClearContract_builds (numPlayers : Nat) (sighash txid : Digest)
    (outputs depositTransactions : List Bytes) {indices : List Nat}
    (hindices : ∀ i ∈ indices, i < numPlayers) :
    wp (building numPlayers globals sighash txid outputs depositTransactions)
      (fun _ last _ => last = globals)
      (sendClearContract sighash txid outputs depositTransactions indices) globals () := by
  induction indices with
  | nil => exact rfl
  | cons i rest ih =>
    have hrest := ih fun j hj => hindices j (List.mem_cons_of_mem i hj)
    simp only [sendClearContract, wp_bind, wp_issue]
    refine ⟨trivial, fun address => ?_⟩
    cases address with
    | none => exact rfl
    | some address =>
      simp only [playerAt, wp_bind, wp_get]
      cases hslot : globals.players[i]?.join with
      | none => exact wp_deref_none.mpr trivial
      | some player =>
        simp only [wp_deref_some, wp_issue, wp_ite, wp_pure]
        have hbuilds : Builds numPlayers globals sighash txid outputs depositTransactions
            (.auntieMsgSend (.ofPayload msgClearContract (ClearContract.encode sighash txid
              (outputs.getD i []) depositTransactions)) player.channel) :=
          ⟨i, player, hindices i List.mem_cons_self, hslot, rfl, rfl⟩
        exact ⟨hbuilds, fun ret => ⟨trivial, fun _ => ⟨fun _ => trivial, fun _ => hrest⟩⟩⟩

end Operator

section EndToEnd
open Operator (sendClearContract)
open Player (ecallGetDepositsImpl)

/-- What a player that has received the message keeps and shows. -/
structure Decodes (numPlayers : Nat) (sighash txid : Digest) (output : Bytes)
    (depositTransactions : List Bytes) (msg : ReceivedMessage) (last : Player.Globals)
    (events : List (Event (Call Player.Callback))) : Prop where
  settlementSighash : last.settlementSighash = sighash
  settlementTxid : last.settlementTxid = txid
  outputLength : last.functionalityOutputLength = output.length
  output : ∀ stored, last.functionalityOutput = some stored → stored.contents = output
  shown : shownIn events = depositTransactions
  tiles : Tiles msg.payload.length (ClearContract.sizeof numPlayers) (ranges numPlayers msg)

theorem decodes_of_took {numPlayers : Nat} {sighash txid : Digest} {output : Bytes}
    {depositTransactions : List Bytes} {channel : ChannelRef} {msg : ReceivedMessage} {last : Player.Globals}
    {events : List (Event (Call Player.Callback))}
    (hpayload : msg.payload = ClearContract.encode sighash txid output depositTransactions)
    (hcount : depositTransactions.length = numPlayers + 1) (h : Took numPlayers channel msg last events) :
    Decodes numPlayers sighash txid output depositTransactions msg last events := by
  have hcontents := contents_of_encode hpayload hcount
  rw [contents, List.cons_append, List.cons.injEq] at hcontents
  have hranges := ranges_eq hpayload hcount
  have hlength : ClearContract.outputLength msg = output.length := by
    rw [ranges, rangesFrom, List.cons_append, List.cons.injEq, Prod.mk.injEq] at hranges
    exact hranges.1.2
  have hstop : msg.payload.length =
      ClearContract.sizeof numPlayers + (output :: depositTransactions).flatten.length := by
    rw [hpayload, encode_length, hcount, ClearContract.sizeof]
  constructor
  · exact h.settlementSighash.trans (settlementSighash_eq hpayload)
  · exact h.settlementTxid.trans (settlementTxid_eq hpayload)
  · exact h.outputLength.trans hlength
  · exact fun stored hstored => (h.output stored hstored).trans hcontents.1
  · exact h.shown.trans hcontents.2
  · rw [hranges, hstop]
    exact tiles_rangesFrom _ _

/-- Each clear-contract message the operator sends goes to the player whose output it holds,
and is decoded there into what the operator put in. -/
theorem clear_contract_decoded (build : Build) {sighash txid : Digest}
    {outputs depositTransactions : List Bytes} (houtputs : outputs.length = build.numPlayers)
    (hdeposits : depositTransactions.length = build.numPlayers + 1)
    {globals operatorLast : Operator.Globals}
    {operatorEvents : List (Event (Call Operator.Callback))} {result : Option Int32}
    (hsends : Exec (sendClearContract sighash txid outputs depositTransactions
      (List.range build.numPlayers)) globals operatorEvents operatorLast result)
    {message : Message} {channel : ChannelRef}
    (hissued : .issued (.auntieMsgSend message channel) ∈ operatorEvents) :
    ∃ i player output, i < build.numPlayers ∧ globals.players[i]?.join = some player ∧
      player.channel = channel ∧ outputs[i]? = some output ∧
      (ClearContract.sizeof build.numPlayers + output.length + depositTransactions.flatten.length <
          2 ^ 32 →
        ∀ {context : Pointer} {before last : Player.Globals}
          {events : List (Event (Call Player.Callback))}
          (_ : Exec (ecallGetDepositsImpl build context) before events last (some 0))
          {arrives : ChannelRef} {msg : ReceivedMessage}
          (_ : .answered (.auntieMsgReceive arrives) (some msg) ∈ events)
          (_ : msg.toMessage = message),
          Decodes build.numPlayers sighash txid output depositTransactions msg last events) := by
  have hbuilds : wp (building build.numPlayers globals sighash txid outputs depositTransactions)
      (fun _ last _ => last = globals) (sendClearContract sighash txid outputs depositTransactions
        (List.range build.numPlayers)) globals () :=
    sendClearContract_builds build.numPlayers sighash txid outputs depositTransactions
      fun i => List.mem_range.mp
  obtain ⟨_, _, i, player, hi, hplayer, hchannel, hmessage⟩ := hsends.issued_safe hbuilds hissued
  have hi' : i < outputs.length := by omega
  refine ⟨i, player, outputs[i], hi, hplayer, hchannel, List.getElem?_eq_getElem hi', ?_⟩
  intro hsize context before last events hexec arrives msg hreceived hmsg
  obtain ⟨operator, received, -, htook⟩ := hexec.taped (ecallGetDepositsImpl_took build context) rfl
  have hmem := mem_arrivedIn.mpr hreceived
  rw [htook.arrived] at hmem
  obtain ⟨-, rfl⟩ := Prod.mk.inj (List.mem_singleton.mp hmem)
  refine decodes_of_took ?_ hdeposits htook
  have houtput : outputs.getD i [] = outputs[i] := by
    rw [List.getD_eq_getElem?_getD, List.getElem?_eq_getElem hi', Option.getD_some]
  rw [hmsg, hmessage, houtput, Message.ofPayload_payload]
  rw [encode_length, List.flatten_cons, List.length_append]
  rw [ClearContract.sizeof] at hsize
  omega

end EndToEnd

section Examples
open Blocks (zeroBuild)

def sampleOutputs : List Bytes := [[9, 9], [], [7]]

def sampleDeposits : List Bytes := [[1], [2, 2], [], [4]]

/-- The operator of a contract of three players sends the messages. -/
def operatorPlayed : List (Event (Call Operator.Callback)) × Operator.Globals × Option Int32 :=
  play Operator.contractHost 0 (Operator.sendClearContract (FixedBytes.zero 32) (FixedBytes.zero 32)
    sampleOutputs sampleDeposits (List.range 3)) Operator.contractState

def firstMessage : Message :=
  .ofPayload msgClearContract
    (ClearContract.encode (FixedBytes.zero 32) (FixedBytes.zero 32) [9, 9] sampleDeposits)

def firstChannel : ChannelRef := ((ChannelRef.create 1).assignId 1).encrypt (FixedBytes.zero 16)

def firstReceived : ReceivedMessage := firstMessage.received (by decide) (by decide +kernel)

def firstHost {β : Type} : Nat → Call Player.Callback β → Option β :=
  obligingHost (fun _ _ => some firstReceived) fun _ => 0

/-- The first player takes its message. -/
def playerPlayed : List (Event (Call Player.Callback)) × Player.Globals × Option Int32 :=
  play firstHost 0 (Player.ecallGetDepositsImpl zeroBuild 0) Player.contractState

theorem operatorPlayed_exec : Exec (Operator.sendClearContract (FixedBytes.zero 32)
    (FixedBytes.zero 32) sampleOutputs sampleDeposits (List.range 3)) Operator.contractState
    operatorPlayed.1 operatorPlayed.2.1 operatorPlayed.2.2 := by
  have hexec := exec_play Operator.contractHost 0 (Operator.sendClearContract (FixedBytes.zero 32)
    (FixedBytes.zero 32) sampleOutputs sampleDeposits (List.range 3)) Operator.contractState
  unfold operatorPlayed
  with_reducible exact hexec

theorem playerPlayed_exec : Exec (Player.ecallGetDepositsImpl zeroBuild 0) Player.contractState
    playerPlayed.1 playerPlayed.2.1 playerPlayed.2.2 := by
  have hexec := exec_play firstHost 0 (Player.ecallGetDepositsImpl zeroBuild 0) Player.contractState
  unfold playerPlayed
  with_reducible exact hexec

theorem clear_contract_decoded_played : ∃ output,
    Decodes 3 (FixedBytes.zero 32) (FixedBytes.zero 32) output sampleDeposits firstReceived
      playerPlayed.2.1 playerPlayed.1 := by
  have hsent : (sentIn operatorPlayed.1).contains (firstMessage, firstChannel) = true := by
    decide +kernel
  obtain ⟨i, player, output, hi, -, -, houtput, hdecodes⟩ := clear_contract_decoded zeroBuild
    (by decide) (by decide) operatorPlayed_exec (mem_sentIn.mp (List.contains_iff_mem.mp hsent))
  have hsize : ∀ output ∈ sampleOutputs,
      ClearContract.sizeof 3 + output.length + sampleDeposits.flatten.length < 2 ^ 32 := by decide
  have hresult : playerPlayed.2.2 = some 0 := by decide +kernel
  have hplayer := playerPlayed_exec
  rw [hresult] at hplayer
  have harrived : (arrivedIn playerPlayed.1).isEmpty = false := by decide +kernel
  obtain ⟨⟨arrives, msg⟩, rest, hfirst⟩ := List.exists_cons_of_ne_nil (List.isEmpty_eq_false_iff.mp harrived)
  have hevent := mem_arrivedIn.mp (hfirst ▸ List.mem_cons_self : (arrives, msg) ∈ arrivedIn playerPlayed.1)
  obtain ⟨time, hanswer⟩ := play_answered hevent
  cases hanswer
  exact ⟨output, hdecodes (hsize output (List.mem_of_getElem? houtput)) hplayer hevent rfl⟩

end Examples

end Auntie.Guarantees.ClearContractDecoding
