import Auntie.Guarantees.PlayerTable
import Auntie.Guarantees.QuoteDistribution
import Auntie.Guarantees.QuoteVetting

/-!
# The quotes of all enclaves are verified

The chain from the handshakes to the quote checker: the enclave shows its host the quotes, the
host writes them to a file, the script hands them on, and the checker verifies them. At a player
they are those of the other players' slots and of the operator, at the operator those of all
slots, each under the report data of its own handshake.
-/

namespace Auntie.Guarantees.VerifiedQuotes
open Auntie.Source Auntie.Source.Host Auntie.Interaction QuoteFile QuoteVetting

section Statement

/-- The script reads this file and these measurements, and the quote checker is the process
behind its pipes. -/
structure Piped (measurement : String → FixedBytes 32) (text : List Char)
    (events : List (Event Script)) (steps : List (Step quoteChecker)) : Prop where
  measured : ∀ enclaveBinary mrenclave,
    .answered (.getMrenclave enclaveBinary) (some mrenclave) ∈ events →
      mrenclave = (measurement enclaveBinary).val
  read : ∀ found, .answered .read (some found) ∈ events → found = text
  stdin : readIn (eventsOf steps) <+: (written events).flatten
  stdout : (heard events).flatten <+: (said (eventsOf steps)).flatten

/-- The player's enclave, or the operator's, with the report data and the quote it has shown. -/
def partyOf (mrenclave : FixedBytes 32) (reportData : ReportData) (quote : Buffer) : RemoteParty :=
  ⟨mrenclave.val, reportData.val, quote.contents⟩

end Statement

section Checks
variable {measurement : String → FixedBytes 32} {text : List Char} {events : List (Event Script)}
  {checkerSteps : List (Step quoteChecker)} {state : Unit}

/-- The parties of the file that a player's script has approved are vouched for. -/
theorem vouched_of_file {shown : List (ReportData × Bytes)} {data : ReportData} {quote : Bytes}
    (hfile : text = fileOf (shown.map (fun entry => (entry.1.val, entry.2)) ++
      [(data.val, quote)]))
    (hchecks : Exec checkQuotesAsPlayer () events () (some true))
    (checker : Trace quoteChecker () checkerSteps state)
    (hpiped : Piped measurement text events checkerSteps) :
    (∀ entry ∈ shown, Vouched ⟨(measurement playerBinary).val, entry.1.val, entry.2⟩
      (eventsOf checkerSteps)) ∧
    Vouched ⟨(measurement operatorBinary).val, data.val, quote⟩ (eventsOf checkerSteps) := by
  obtain ⟨_, _, _, entries, operator, happroves⟩ := hchecks.taped checkQuotesAsPlayer_approves rfl
  obtain rfl := hpiped.measured _ _ happroves.player
  obtain rfl := hpiped.measured _ _ happroves.operator
  obtain rfl := hpiped.read _ happroves.read
  have hparsed := happroves.parsed
  rw [hfile, parseQuotesFile_fileOf] at hparsed
  obtain ⟨rfl, hlast⟩ := List.append_inj' (Option.some.inj hparsed) rfl
  cases hlast
  have hvouched := accepted_vouched happroves.accepted ?_ checker hpiped.stdin hpiped.stdout
  · refine ⟨fun entry hentry => hvouched _ ?_, hvouched _ ?_⟩
    · exact List.mem_append_left _ (List.mem_map_of_mem (List.mem_map_of_mem hentry))
    · exact List.mem_append_right _ List.mem_cons_self
  · intro party hparty
    rcases List.mem_append.mp hparty with hparty | hparty
    · simp only [List.map_map, List.mem_map] at hparty
      obtain ⟨entry, -, rfl⟩ := hparty
      exact ⟨(measurement playerBinary).property, entry.1.property⟩
    · rw [List.mem_singleton.mp hparty]
      exact ⟨(measurement operatorBinary).property, data.property⟩

end Checks

section Player
open QuoteDistribution

/-- What a player's script has had accepted are the other players in the slots, and the operator. -/
theorem quotes_verified (dep : Deployment) {k : Nat}
    {operatorSteps : List (Step (Source.Operator.enclave dep))}
    {operatorState : Source.Operator.Globals}
    (trace : Trace (Source.Operator.enclave dep) (Source.Operator.initial dep) operatorSteps
      operatorState)
    {registered : Source.Operator.Player} (hk : 1 ≤ k)
    (hregistered : operatorState.players[k - 1]? = some (some registered))
    {step : Step (Source.Player.enclave dep)} (valid : step.Valid) {context : Pointer}
    (hop : step.op = Source.Player.Ecall.ecallConnectToOperator context k)
    (hresult : step.result = some (0 : Int32)) {operator : Source.Player.Operator}
    (hoperator : step.after.operator = some operator)
    (hdelivered : ∀ msg : ReceivedMessage,
      .answered (.auntieMsgReceive operator.channel) (some msg) ∈ step.events →
        .host (.issued (.auntieMsgSend msg.toMessage registered.channel)) ∈ logOf operatorSteps)
    (hsize : broadcastSize operatorState < 2 ^ 32)
    {hostSteps : List (Step quotesHost)} {text : List Char}
    (host : Run quotesHost (some []) hostSteps (some text))
    (hprints : servedBy hostSteps = (printsOf step.events).map fun shown => (shown.1, some shown.2))
    {events : List (Event Script)} (hchecks : Exec checkQuotesAsPlayer () events () (some true))
    {checkerSteps : List (Step quoteChecker)} {state : Unit}
    (checker : Trace quoteChecker () checkerSteps state) {measurement : String → FixedBytes 32}
    (hpiped : Piped measurement text events checkerSteps) :
    ∃ filled : List Source.Operator.Player, filled.length = dep.build.numPlayers ∧
      operatorState.players = filled.map some ∧
      (∀ player ∈ filled.eraseIdx (k - 1), Vouched
        (partyOf (measurement playerBinary) player.reportData player.quote)
        (eventsOf checkerSteps)) ∧
      Vouched (partyOf (measurement operatorBinary) operator.reportData operator.quote)
        (eventsOf checkerSteps) := by
  obtain ⟨filled, hlength, hfilled, hfile⟩ := file_of_connection trace hk hregistered valid hop
    hresult hoperator hdelivered hsize host hprints
  have hentries : text = fileOf (((filled.eraseIdx (k - 1)).map fun player =>
      (player.reportData, player.quote.contents)).map (fun entry => (entry.1.val, entry.2)) ++
        [(operator.reportData.val, operator.quote.contents)]) := by
    rw [hfile, List.map_map]
    rfl
  obtain ⟨hplayers, hoperator⟩ := vouched_of_file hentries hchecks checker hpiped
  exact ⟨filled, hlength, hfilled, fun player hplayer => hplayers _ (List.mem_map_of_mem hplayer),
    hoperator⟩

end Player

section Operator
open Source.Operator OperatorSetup QuoteDistribution
open PlayerTable (Table step_table trace_history)
open Program (Within)
variable {globals : Globals}

theorem learnQuotingEnclave_silent (before : Globals) :
    learnQuotingEnclave.Within PrintsNothing (SlotsKept before) :=
  learnQuotingEnclave_within trivial fun _ _ _ => id

theorem operatorAttestation_silent (before : Globals) (tcrypto : Tcrypto) (numPlayers : Nat)
    (context : Pointer) :
    (mutualAttestation tcrypto numPlayers context).Within PrintsNothing (SlotsKept before) :=
  mutualAttestation_within prints_of_handshake (fun _ => trivial) (fun _ _ => id)
    (fun _ => trivial) (fun _ _ => trivial) tcrypto numPlayers context

variable {filled : List Player}

theorem playerAt_silent (i : Nat) : (playerAt i).Within PrintsNothing (globals = ·) :=
  playerAt_within trivial i

theorem sendTo_silent (msg : Message) (i : Nat) :
    (playerAt i >>= fun player => issue (.auntieMsgSend msg player.channel)).Within
      PrintsNothing (globals = ·) :=
  Within.bind (playerAt_silent i) fun _ => Within.issue trivial

theorem printQuotes_prints (hfilled : globals.players = filled.map some) {indices : List Nat}
    (hindices : Occupied filled indices) :
    wp tape (fun error last events => last = globals ∧ error ≠ some 0 ∧ (error = none →
        printsOf events = ((indices.filterMap fun i => filled[i]?).map shownOf).map (·, 0)))
      (printQuotes indices) globals [] := by
  induction indices with
  | nil => exact ⟨rfl, (by simp), fun _ => rfl⟩
  | cons i rest ih =>
    obtain ⟨player, hplayer⟩ := hindices.head
    rw [printQuotes, wp_bind, wp_playerAt hfilled hplayer]
    simp only [wp_bind, wp_tape_issue, wp_ite, wp_pure]
    intro ret
    refine ⟨fun hret => ⟨trivial, fun h => hret (Option.some.inj h), (by simp)⟩, fun hret => ?_⟩
    refine wp_tape_from (ih hindices.tail) ?_
    rintro error last events ⟨hlast, herror, hprints⟩
    refine ⟨hlast, herror, fun hnone => ?_⟩
    rw [printsOf_append, hprints hnone, not_not.mp hret, List.filterMap_cons_some hplayer]
    rfl

/-- The operator shows the quotes of all players. -/
theorem operatorQuotes_prints (hfilled : globals.players = filled.map some) :
    wp tape (fun ret last events => last = globals ∧
        (ret = 0 → printsOf events = (filled.map shownOf).map (·, 0)))
      (presentQuotes filled.length) globals [] := by
  have hindices : Occupied filled (List.range filled.length) := fun i => List.mem_range.mp
  simp only [presentQuotes, wp_bind]
  refine wp_mono ?_ (printQuotes_prints hfilled hindices)
  rintro error _ shown ⟨rfl, herror, hprints⟩
  cases error with
  | some error => exact ⟨rfl, fun h => absurd (congrArg some h) herror⟩
  | none =>
    have hshown := hprints rfl
    rw [filterMap_range] at hshown
    dsimp only
    have hreceive : ∀ channel : ChannelRef,
        PrintsNothing (.auntieMsgReceive channel : Call Callback _) := fun _ => trivial
    have hfree : ∀ address, PrintsNothing (.free address : Call Callback _) := fun _ => trivial
    refine quiet_tape (?_ : Within PrintsNothing (_ = ·) _) rfl
      fun ret last events hlast hevents => ?_
    · repeat' with_reducible first
        | exact collectQuotes_within fun i _ => playerAt_silent i
        | exact broadcast_within _ fun i _ => sendTo_silent _ i
        | exact receiveAcknowledgements_within (fun i _ => playerAt_silent i) hreceive hfree
        | intro _
        | apply Within.issue
        | apply Within.value
        | apply Within.bind
        | split
      all_goals trivial
    · exact ⟨hlast.symm, fun _ => hevents.trans hshown⟩

/-- A connection that returns zero with every slot filled has shown what the slots hold. -/
theorem ecallConnectToPlayer_prints {dep : Deployment} (hslots : Slots dep.build.numPlayers globals)
    (context : Pointer) :
    wp tape (fun ret last events => ret = 0 → last.playersConnected = dep.build.numPlayers →
        ∃ filled : List Player, filled.length = dep.build.numPlayers ∧
          last.players = filled.map some ∧ printsOf events = (filled.map shownOf).map (·, 0))
      (ecallConnectToPlayer dep context) globals [] := by
  simp only [ecallConnectToPlayer, wp_bind, wp_get, wp_ite, wp_pure]
  refine ⟨fun _ h => absurd h ebusy_error, fun hother => ?_⟩
  have hopen {last : Globals} (hkept : SlotsKept globals last) :
      last.playersConnected ≠ dep.build.numPlayers := by
    rw [hkept.2]
    simpa [allPlayersConnected] using hother
  refine quiet_tape (learnQuotingEnclave_silent globals) ⟨rfl, rfl⟩
    fun error last events hkept hnone => ?_
  cases error with
  | some error => exact fun _ hall => absurd hall (hopen hkept)
  | none =>
    rw [wp_bind]
    refine quiet_tape (operatorAttestation_silent globals _ _ _) hkept
      fun player last events' hkept hnone' => ?_
    cases player with
    | none => exact fun h => absurd h eio_error
    | some player =>
      simp only [addPlayer, wp_bind, wp_get, wp_ite, wp_modify, wp_fault]
      refine ⟨fun _ => trivial, fun hid => ?_⟩
      simp only [Bool.not_eq_true', Bool.not_eq_false] at hid
      have hadded := (hslots.of_kept hkept).add hid
      simp only [wp_pure]
      refine ⟨fun hall => ?_, fun hopen _ hall => absurd hall ?_⟩
      · obtain ⟨filled, hlength, hfilled⟩ := hadded.filled (of_decide_eq_true hall)
        rw [← hlength]
        refine wp_tape_from (operatorQuotes_prints hfilled) ?_
        rintro ret _ later ⟨rfl, hprints⟩ hret _
        refine ⟨filled, rfl, hfilled, ?_⟩
        rw [printsOf_append, hnone'.trans hnone, hprints hret]
        rfl
      · simpa [allPlayersConnected] using hopen

/-- What the operator's script has had accepted are the players in the slots. -/
theorem players_verified (dep : Deployment) {steps : List (Step (enclave dep))} {state : Globals}
    (trace : Trace (enclave dep) (initial dep) steps state) {step : Step (enclave dep)}
    (hstep : step ∈ steps) (hcompletes : completes step)
    {hostSteps : List (Step quotesHost)} {text : List Char}
    (host : Run quotesHost (some []) hostSteps (some text))
    (hprints : servedBy hostSteps = (printsOf step.events).map fun shown => (shown.1, some shown.2))
    {events : List (Event Script)} (hchecks : Exec checkQuotesAsOperator () events () (some true))
    {checkerSteps : List (Step quoteChecker)} {checkerState : Unit}
    (checker : Trace quoteChecker () checkerSteps checkerState)
    {measurement : String → FixedBytes 32} (hpiped : Piped measurement text events checkerSteps) :
    ∃ filled : List Player, filled.length = dep.build.numPlayers ∧
      step.after.players = filled.map some ∧
      ∀ player ∈ filled, Vouched
        (partyOf (measurement playerBinary) player.reportData player.quote)
        (eventsOf checkerSteps) := by
  have htable : Table dep.build.numPlayers step.before ∧ step.Valid :=
    trace.steps_inv (trace_history (.resting .start)).table
      (fun _ hbefore valid _ => (step_table hbefore valid).1) step hstep
  obtain ⟨htable, valid⟩ := htable
  obtain ⟨before, op, operatorEvents, after, result⟩ := step
  cases op with
  | ecallConnectToPlayer context =>
    obtain ⟨ret, rfl⟩ : ∃ ret : Int32, result = some ret := by
      cases result with
      | none => cases hcompletes
      | some ret => exact ⟨ret, rfl⟩
    obtain ⟨rfl, hall⟩ := completes_connect hcompletes
    obtain ⟨filled, hlength, hfilled, hshown⟩ :=
      Exec.taped valid (ecallConnectToPlayer_prints htable.slots context) rfl hall
    have hserved : servedBy hostSteps = (filled.map shownOf).map (·, some 0) := by
      rw [hprints, hshown, List.map_map]
      rfl
    have hfile := Option.some.inj (file_of_served host hserved)
    obtain ⟨_, _, entries, happroves⟩ := hchecks.taped checkQuotesAsOperator_approves rfl
    obtain rfl := hpiped.measured _ _ happroves.player
    obtain rfl := hpiped.read _ happroves.read
    have hparsed := happroves.parsed
    rw [hfile, parseQuotesFile_fileOf] at hparsed
    obtain rfl := Option.some.inj hparsed
    have haccepted := happroves.accepted
    simp only [List.map_map] at haccepted
    have hvouched := accepted_vouched haccepted ?_ checker hpiped.stdin hpiped.stdout
    · refine ⟨filled, hlength, hfilled, fun player hplayer => hvouched _ ?_⟩
      exact List.mem_map_of_mem hplayer
    · intro party hparty
      obtain ⟨player, -, rfl⟩ := List.mem_map.mp hparty
      exact ⟨(measurement playerBinary).property, player.reportData.property⟩
  | _ => cases hcompletes

end Operator

section Examples
open QuoteDistribution (printingHost printsOf presented)

/-- A quote as long as its report and an empty signature, of an enclave that measures as this
byte. -/
def plainQuote (measure : UInt8) : Bytes :=
  List.replicate 112 0 ++ List.replicate 32 measure ++ List.replicate 292 0

theorem report_le_plainQuote (measure : UInt8) : reportEnd ≤ (plainQuote measure).length := by
  rw [plainQuote, List.length_append, List.length_append, List.length_replicate,
    List.length_replicate, List.length_replicate]
  decide

/-- The player's enclave measures as ones, the operator's as twos. -/
def measured (enclaveBinary : String) : FixedBytes 32 :=
  if enclaveBinary = playerBinary then ⟨List.replicate 32 1, rfl⟩ else ⟨List.replicate 32 2, rfl⟩

/-- A host whose platform makes the given quote. -/
def quotingHost {Callback : Type} (quote : Bytes) (receive : Nat → ChannelRef → ReceivedMessage)
    {β : Type} (time : Nat) : Call Callback β → Option β
  | .ocallQuoteMe _ => some (0, [⟨quote, some 1⟩])
  | c => obligingHost (fun time channel => some (receive time channel)) (fun _ => 0) time c

theorem quotingHost_received {Callback σ : Type} {comp : Component (Call Callback) σ}
    {quote : Bytes} {receive : Nat → ChannelRef → ReceivedMessage} {time : Nat} {before : σ}
    {op : comp.Op} {channel : ChannelRef} {msg : ReceivedMessage}
    (h : .answered (.auntieMsgReceive channel) (some msg) ∈
      (playStep comp (quotingHost quote receive) time before op).events) :
    ∃ time', msg = receive time' channel := by
  obtain ⟨time', hanswer⟩ := play_answered h
  exact ⟨time', (Option.some.inj (Option.some.inj hanswer)).symm⟩

/-- The players send their quotes. -/
def operatorMessages (time : Nat) (channel : ChannelRef) : ReceivedMessage :=
  if (Source.Operator.contractMessages time channel).msgType = msgAttestationAck then
    (Message.mk msgAttestationAck (plainQuote 1)).received (by decide) (by decide +kernel)
  else Source.Operator.contractMessages time channel

/-- The three players connect. -/
def operatorSteps : List (Step (Source.Operator.enclave zeroDeployment)) :=
  playRun (Source.Operator.enclave zeroDeployment) (quotingHost (plainQuote 2) operatorMessages) 0
    (Source.Operator.initial zeroDeployment) (Source.Operator.contract.take 3)

def operatorState : Source.Operator.Globals :=
  lastState (Source.Operator.enclave zeroDeployment) (Source.Operator.initial zeroDeployment)
    operatorSteps

theorem operatorSteps_run : Run (Source.Operator.enclave zeroDeployment)
    (Source.Operator.initial zeroDeployment) operatorSteps operatorState :=
  run_playRun (Source.Operator.enclave zeroDeployment)
    (quotingHost (plainQuote 2) operatorMessages) (Source.Operator.initial zeroDeployment)
    (Source.Operator.contract.take 3) (by decide +kernel)

/-- What the operator has sent to the first of them. -/
def playerMessages (time : Nat) (_ : ChannelRef) : ReceivedMessage :=
  if time < 30 then
    (Message.mk msgAttestationSynack (Synack.encode ⟨FixedBytes.zero 64, FixedBytes.zero 32,
      plainQuote 2⟩)).received (by decide) (by decide +kernel)
  else if time < 60 then
    (Message.mk msgPlayersQuotesBroadcast (QuotesBroadcast.encode
      (List.replicate 3 (FixedBytes.zero 64, plainQuote 1)))).received (by decide)
      (by decide +kernel)
  else Source.Player.contractMessages time

/-- The first player connects. -/
def playerStep : Step (Source.Player.enclave zeroDeployment) :=
  playStep (Source.Player.enclave zeroDeployment) (quotingHost (plainQuote 1) playerMessages) 0
    Source.Player.initial (.ecallConnectToOperator 0 1)

def operatorChannel : ChannelRef :=
  ((ChannelRef.create 0).assignId 0).encrypt (FixedBytes.zero 16)

def registeredChannel : ChannelRef :=
  ((ChannelRef.create 1).assignId 1).encrypt (FixedBytes.zero 16)

/-- What the first player shows: the quotes of the second and the third, then the operator's. -/
def playerShown : List (Bytes × ReportData) :=
  [(plainQuote 1, FixedBytes.zero 64), (plainQuote 1, FixedBytes.zero 64),
    (plainQuote 2, FixedBytes.zero 64)]

/-- What the operator shows. -/
def operatorShown : List (Bytes × ReportData) := List.replicate 3 (plainQuote 1, FixedBytes.zero 64)

def textOf (shown : List (Bytes × ReportData)) : List Char := fileOf (shown.map entryOf)

def printedSteps (shown : List (Bytes × ReportData)) : List (Step quotesHost) :=
  playRun quotesHost printingHost 0 (some []) shown

theorem printed_run {shown : List (Bytes × ReportData)}
    (hserved : servedBy (printedSteps shown) = shown.map (·, some 0)) :
    Run quotesHost (some []) (printedSteps shown) (some (textOf shown)) := by
  have hfinished : (printedSteps shown).all fun step => step.result.isSome := by
    refine List.all_eq_true.mpr fun step hstep => ?_
    have hmem : (step.op, step.result) ∈ servedBy (printedSteps shown) :=
      List.mem_map_of_mem (f := fun step : Step quotesHost => (step.op, step.result)) hstep
    rw [hserved] at hmem
    obtain ⟨entry, -, hentry⟩ := List.mem_map.mp hmem
    rw [← (Prod.mk.inj hentry).2]
    rfl
  have hrun := run_playRun quotesHost printingHost (some []) shown hfinished
  rwa [file_of_served hrun hserved] at hrun

/-- The writes for the parties, each answered with the line of a quote that is fine. -/
def acceptedEvents (parties : List RemoteParty) : List (Event Script) :=
  parties.flatMap fun party =>
    (request party).flatMap (fun bytes => [.issued (.write bytes), .answered (.write bytes) ()]) ++
      [.issued .readline, .answered .readline quoteOk]

theorem acceptedEvents_exec {parties : List RemoteParty}
    (hfits : ∀ party ∈ parties, party.quote.length < 2 ^ 32) :
    Exec (verifyAttestations parties) () (acceptedEvents parties) () (some true) := by
  induction parties with
  | nil => exact .pure true ()
  | cons party parties ih =>
    obtain ⟨hparty, hrest⟩ := List.forall_mem_cons.mp hfits
    have hsize : ¬ 4294967296 ≤ party.quote.length := Nat.not_le.mpr hparty
    have haccepted := ih hrest
    simp only [acceptedEvents] at haccepted ⊢
    simpa [verifyAttestations, request, hsize] using haccepted

/-- The requests are those for enclaves that measure as these bytes; a round makes nine calls. -/
def vouchingHost (measures : List UInt8) {β : Type} (time : Nat) : Checker β → Option β
  | .fread size =>
    let measure := measures.getD (time / 18) 0
    let request := if size = 32 then List.replicate 32 measure
      else if size = 4 then leBytes 4 (plainQuote measure).length
      else if size = 64 then List.replicate 64 0
      else plainQuote measure
    some ⟨request.take size, List.length_take_le _ _⟩
  | .malloc _ => some (some 0)
  | .free _ => some ()
  | .readPast _ count => some (FixedBytes.zero count)
  | .sgxQvVerifyQuote _ => some (0, 0)
  | .fprintf _ => some ()
  | .exit => none

def vouchingSteps (measures : List UInt8) : List (Step quoteChecker) :=
  playRun quoteChecker (vouchingHost measures) 0 () (measures.map fun _ => ())

theorem acceptedEvents_accepted {parties : List RemoteParty}
    (hfits : ∀ party ∈ parties, party.quote.length < 2 ^ 32) :
    HadAccepted parties (acceptedEvents parties) :=
  (acceptedEvents_exec hfits).taped (verifyAttestations_accepts parties) rfl

/-- The measurements of these enclaves, and the file. -/
def foundEvents (enclaves : List String) (text : List Char) : List (Event Script) :=
  enclaves.flatMap (fun enclave => [.issued (.getMrenclave enclave),
      .answered (.getMrenclave enclave) (some (measured enclave).val)]) ++
    [.issued .read, .answered .read (some text)]

section Pipes
variable {parties : List RemoteParty} {enclaves : List String} {text : List Char}
  {steps : List (Step quoteChecker)}

def measurementIn : Event Script → List (String × Option Bytes)
  | .answered (.getMrenclave enclave) mrenclave => [(enclave, mrenclave)]
  | _ => []

def textIn : Event Script → List (Option (List Char))
  | .answered .read text => [text]
  | _ => []

theorem measurements_found :
    (foundEvents enclaves text ++ acceptedEvents parties).flatMap measurementIn =
      enclaves.map fun enclave => (enclave, some (measured enclave).val) := by
  simp [foundEvents, acceptedEvents, request, measurementIn, List.flatMap_assoc,
    List.map_eq_flatMap]

theorem text_found :
    (foundEvents enclaves text ++ acceptedEvents parties).flatMap textIn = [some text] := by
  have hquiet : (acceptedEvents parties).flatMap textIn = [] := by
    simp [acceptedEvents, request, textIn, List.flatMap_assoc]
  simp [foundEvents, textIn, List.flatMap_assoc, hquiet]

theorem foundEvents_quiet :
    written (foundEvents enclaves text) = [] ∧ heard (foundEvents enclaves text) = [] := by
  simp [foundEvents, written, heard, asked, statusLine, List.flatMap_assoc]

/-- The pipes carry the requests for the parties, behind what the script has found. -/
theorem piped_of_accepted (hfits : ∀ party ∈ parties, party.quote.length < 2 ^ 32)
    (hstdin : readIn (eventsOf steps) <+: (parties.flatMap request).flatten)
    (hstdout : (List.replicate parties.length quoteOk).flatten <+:
      (said (eventsOf steps)).flatten) :
    Piped measured text (foundEvents enclaves text ++ acceptedEvents parties) steps := by
  have haccepted := acceptedEvents_accepted hfits
  constructor
  · intro enclaveBinary mrenclave hmem
    have hfound := List.mem_flatMap_of_mem (f := measurementIn) hmem List.mem_cons_self
    rw [measurements_found] at hfound
    obtain ⟨enclave, -, hfound⟩ := List.mem_map.mp hfound
    cases hfound
    rfl
  · intro other hmem
    have hfound := List.mem_flatMap_of_mem (f := textIn) hmem List.mem_cons_self
    rw [text_found, List.mem_singleton] at hfound
    exact Option.some.inj hfound
  · rw [written_append, foundEvents_quiet.1, haccepted.written]
    exact hstdin
  · rw [heard_append, foundEvents_quiet.2, haccepted.heard]
    exact hstdout

end Pipes

section Scripts

def playerParties : List RemoteParty :=
  [⟨(measured playerBinary).val, (FixedBytes.zero 64).val, plainQuote 1⟩,
    ⟨(measured playerBinary).val, (FixedBytes.zero 64).val, plainQuote 1⟩,
    ⟨(measured operatorBinary).val, (FixedBytes.zero 64).val, plainQuote 2⟩]

def playerEvents : List (Event Script) :=
  foundEvents [playerBinary, operatorBinary] (textOf playerShown) ++ acceptedEvents playerParties

theorem playerParties_fit : ∀ party ∈ playerParties, party.quote.length < 2 ^ 32 := by
  decide +kernel

theorem playerEvents_exec : Exec checkQuotesAsPlayer () playerEvents () (some true) := by
  have haccepted := acceptedEvents_exec playerParties_fit
  simpa [checkQuotesAsPlayer, playerEvents, foundEvents, textOf, parseQuotesFile_fileOf,
    playerShown, entryOf, playerParties] using haccepted

def operatorParties : List RemoteParty :=
  List.replicate 3 ⟨(measured playerBinary).val, (FixedBytes.zero 64).val, plainQuote 1⟩

def operatorEvents : List (Event Script) :=
  foundEvents [playerBinary] (textOf operatorShown) ++ acceptedEvents operatorParties

theorem operatorParties_fit : ∀ party ∈ operatorParties, party.quote.length < 2 ^ 32 := by
  decide +kernel

theorem operatorEvents_exec : Exec checkQuotesAsOperator () operatorEvents () (some true) := by
  have haccepted := acceptedEvents_exec operatorParties_fit
  simpa [checkQuotesAsOperator, operatorEvents, foundEvents, textOf, parseQuotesFile_fileOf,
    operatorShown, entryOf, operatorParties] using haccepted

end Scripts

section Checkers

theorem vouchingSteps_run {measures : List UInt8}
    (hfinished : (vouchingSteps measures).all fun step => step.result.isSome) :
    Run quoteChecker () (vouchingSteps measures) () :=
  run_playRun quoteChecker (vouchingHost measures) () _ hfinished

theorem playerEvents_piped : Piped measured (textOf playerShown) playerEvents
    (vouchingSteps [1, 1, 2]) :=
  piped_of_accepted playerParties_fit (by decide +kernel) (by decide +kernel)

theorem operatorEvents_piped : Piped measured (textOf operatorShown) operatorEvents
    (vouchingSteps [1, 1, 1]) :=
  piped_of_accepted operatorParties_fit (by decide +kernel) (by decide +kernel)

end Checkers

section Connection

theorem playerStep_valid : playerStep.Valid := playStep_valid _ _ _ _ _

def playerResult : Option Int32 := playerStep.result

theorem playerResult_eq : playerResult = some 0 := by decide +kernel

theorem playerStep_result : playerStep.result = some (0 : Int32) := playerResult_eq

/-- What the player has stored of the operator. -/
theorem playerStep_stored : playerStep.after.operator.map (fun operator =>
    (operator.channel, operator.reportData, operator.quote.contents)) =
      some (operatorChannel, FixedBytes.zero 64, plainQuote 2) := by
  decide +kernel

theorem broadcast_of_type {time : Nat} {channel : ChannelRef}
    (htype : (playerMessages time channel).msgType = msgPlayersQuotesBroadcast) :
    (playerMessages time channel).payload =
      QuotesBroadcast.encode (List.replicate 3 (FixedBytes.zero 64, plainQuote 1)) := by
  unfold playerMessages at htype ⊢
  split at htype
  · cases htype
  · split at htype
    · rw [if_neg ‹_›, if_pos ‹_›]
      rfl
    · unfold Source.Player.contractMessages at htype
      rw [if_neg ‹_›, if_neg ‹_›] at htype
      split at htype
      · cases htype
      · cases htype

/-- A player as the operator has stored it. -/
def storedPlayer : Source.Operator.Player :=
  ⟨1, registeredChannel, 1, FixedBytes.zero 64, ⟨1, plainQuote 1⟩⟩

/-- The first player shows the slots of the others. -/
theorem broadcast_presented {msg : ReceivedMessage} (hpayload : msg.payload =
      QuotesBroadcast.encode (List.replicate 3 (FixedBytes.zero 64, plainQuote 1))) :
    presented 3 1 msg (List.range 3) = List.replicate 2 (plainQuote 1, FixedBytes.zero 64) := by
  have hslots : msg.payload = QuotesBroadcast.encode ((List.replicate 3 storedPlayer).map
      fun player => (player.reportData, player.quote.contents)) := by
    rw [hpayload, List.map_replicate]
    rfl
  have hpresented := QuoteDistribution.presented_slots hslots le_rfl (by decide)
  rw [List.length_replicate] at hpresented
  rw [hpresented]
  rfl

theorem playerStep_prints : printsOf playerStep.events = playerShown.map (·, 0) := by
  obtain ⟨operator, hoperator, msg, htype, hreceived, hprinted⟩ :=
    QuoteDistribution.prints_of_connection playerStep_valid rfl playerStep_result
  have hstored := playerStep_stored
  rw [hoperator, Option.map_some, Option.some.injEq, Prod.mk.injEq, Prod.mk.injEq] at hstored
  obtain ⟨-, hreportData, hquote⟩ := hstored
  obtain ⟨time, rfl⟩ := quotingHost_received hreceived
  have hpresented := broadcast_presented (broadcast_of_type htype)
  have hplayers : zeroDeployment.build.numPlayers = 3 := rfl
  rw [hprinted, hreportData, hquote, hplayers, hpresented]
  rfl

end Connection

/-- What the first player receives after the handshake the operator has sent to its slot. -/
theorem playerStep_delivered {registered : Source.Operator.Player}
    (hchannel : registered.channel = registeredChannel) (msg : ReceivedMessage)
    (hmsg : .answered (.auntieMsgReceive operatorChannel) (some msg) ∈ playerStep.events) :
    .host (.issued (.auntieMsgSend msg.toMessage registered.channel)) ∈ logOf operatorSteps := by
  have hreceived : (arrivedIn playerStep.events).all (fun arrival =>
      arrival.1 ≠ operatorChannel ||
        (sentIn (eventsOf operatorSteps)).contains (arrival.2.toMessage, registeredChannel)) =
          true := by
    decide +kernel
  have hsent := List.all_eq_true.mp hreceived _ (mem_arrivedIn.mpr hmsg)
  simp only [ne_eq, not_true_eq_false, decide_false, Bool.false_or] at hsent
  obtain ⟨step, hstep, hevent⟩ :=
    List.mem_flatMap.mp (mem_sentIn.mp (List.contains_iff_mem.mp hsent))
  rw [hchannel]
  exact mem_logOf_issued hstep hevent

theorem registered_first : ∃ registered, registered.channel = registeredChannel ∧
    operatorState.players[1 - 1]? = some (some registered) := by
  have hchannel : operatorState.players[1 - 1]?.join.map (·.channel) =
      some registeredChannel := by decide +kernel
  obtain ⟨registered, hslot, hsame⟩ := Option.map_eq_some_iff.mp hchannel
  exact ⟨registered, hsame, Option.join_eq_some_iff.mp hslot⟩

/-- The checker of the first player has found the report of the operator's enclave in its quote,
and vouches for the quotes of the second and the third player. -/
theorem quotes_verified_played : ∃ filled : List Source.Operator.Player, filled.length = 3 ∧
    operatorState.players = filled.map some ∧
    (∀ player ∈ filled.eraseIdx 0, Vouched
      (partyOf (measured playerBinary) player.reportData player.quote)
      (eventsOf (vouchingSteps [1, 1, 2]))) ∧
    Reports ⟨(measured operatorBinary).val, (FixedBytes.zero 64).val, plainQuote 2⟩
      (plainQuote 2) := by
  obtain ⟨registered, hchannel, hregistered⟩ := registered_first
  obtain ⟨operator, hoperator, hstored⟩ := Option.map_eq_some_iff.mp playerStep_stored
  rw [Prod.mk.injEq, Prod.mk.injEq] at hstored
  obtain ⟨hoperatorChannel, hreportData, hquote⟩ := hstored
  have hserved : servedBy (printedSteps playerShown) = playerShown.map (·, some 0) := by
    decide +kernel
  have hprints : servedBy (printedSteps playerShown) =
      (printsOf playerStep.events).map fun shown => (shown.1, some shown.2) := by
    rw [hserved, playerStep_prints]
    rfl
  obtain ⟨filled, hlength, hfilled, hplayers, hvouched⟩ := quotes_verified zeroDeployment
    (.resting operatorSteps_run) le_rfl hregistered playerStep_valid rfl playerStep_result hoperator
    (fun msg hmsg => playerStep_delivered hchannel msg (hoperatorChannel ▸ hmsg))
    (by decide +kernel) (printed_run hserved) hprints playerEvents_exec
    (.resting (vouchingSteps_run (by decide +kernel))) playerEvents_piped
  rw [partyOf, hreportData, hquote] at hvouched
  exact ⟨filled, hlength, hfilled, hplayers, hvouched.reports (report_le_plainQuote 2)⟩

/-- The checker of the operator has found the reports of all three players in their quotes. -/
theorem players_verified_played : ∃ filled : List Source.Operator.Player, filled.length = 3 ∧
    ∀ player ∈ filled, Vouched
      (partyOf (measured playerBinary) player.reportData player.quote)
      (eventsOf (vouchingSteps [1, 1, 1])) := by
  have hconnect : operatorSteps.any (fun step => OperatorSetup.completes step &&
      decide (QuoteDistribution.printsOf step.events = operatorShown.map (·, 0))) = true := by
    decide +kernel
  obtain ⟨step, hstep, hcompletes⟩ := List.any_eq_true.mp hconnect
  obtain ⟨hcompletes, hshown⟩ := Bool.and_eq_true_iff.mp hcompletes
  have hserved : servedBy (printedSteps operatorShown) = operatorShown.map (·, some 0) := by
    decide +kernel
  have hprints : servedBy (printedSteps operatorShown) =
      (printsOf step.events).map fun shown => (shown.1, some shown.2) := by
    rw [hserved, of_decide_eq_true hshown]
    rfl
  obtain ⟨filled, hlength, -, hvouched⟩ := players_verified zeroDeployment
    (.resting operatorSteps_run) hstep hcompletes (printed_run hserved) hprints operatorEvents_exec
    (.resting (vouchingSteps_run (by decide +kernel))) operatorEvents_piped
  exact ⟨filled, hlength, hvouched⟩

end Examples

end Auntie.Guarantees.VerifiedQuotes
