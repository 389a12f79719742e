import Auntie.Guarantees.QuoteFile
import Auntie.Source.Host.QuoteChecker

/-!
# What the quote checker has vouched for

The script and the quote checker share two pipes and no memory: the checker finds the end of a
request in what it reads, and its status line does not say which party it is about. Requests of
the right widths are read as they were written, so each line accepts the party it is read for.
-/

namespace Auntie.Guarantees.QuoteVetting
open Auntie.Source Auntie.Source.Host Auntie.Interaction QuoteFile

section Framing

/-- The checker reads the request as the script has written it. -/
structure Framed (party : RemoteParty) : Prop where
  mrenclave : party.mrenclave.length = 32
  reportData : party.reportData.length = 64
  quote : party.quote.length < 2 ^ 32

variable {party other : RemoteParty}

theorem prefix_cancel {first second rest rest' : Bytes} (hlength : first.length = second.length)
    (h : first ++ rest <+: second ++ rest') : first = second ∧ rest <+: rest' := by
  obtain ⟨more, hmore⟩ := h
  rw [List.append_assoc] at hmore
  obtain ⟨hfirst, hrest⟩ := List.append_inj hmore hlength
  exact ⟨hfirst, more, hrest⟩

/-- A request says where it ends. -/
theorem request_cancel (hparty : Framed party) (hother : Framed other) {rest rest' : Bytes}
    (h : (request party).flatten ++ rest <+: (request other).flatten ++ rest') :
    party = other ∧ rest <+: rest' := by
  simp only [request, List.flatten_cons, List.flatten_nil, List.append_nil,
    List.append_assoc] at h
  obtain ⟨hmrenclave, h⟩ := prefix_cancel (hparty.mrenclave.trans hother.mrenclave.symm) h
  obtain ⟨hreportData, h⟩ := prefix_cancel (hparty.reportData.trans hother.reportData.symm) h
  obtain ⟨hsize, h⟩ := prefix_cancel (by rw [leBytes_length, leBytes_length]) h
  have hlength : party.quote.length = other.quote.length := by
    calc party.quote.length = leValue (leBytes 4 party.quote.length) :=
          (leValue_u32ToLeBytes _ hparty.quote).symm
      _ = leValue (leBytes 4 other.quote.length) := congrArg leValue hsize
      _ = other.quote.length := leValue_u32ToLeBytes _ hother.quote
  obtain ⟨hquote, h⟩ := prefix_cancel hlength h
  refine ⟨?_, h⟩
  cases party
  cases other
  cases hmrenclave
  cases hreportData
  cases hquote
  rfl

theorem request_ne_nil (hparty : Framed party) : (request party).flatten ≠ [] := by
  intro hnil
  have hlength := congrArg List.length hnil
  simp [request, hparty.mrenclave] at hlength

/-- Requests that were read in order are those that were written. -/
theorem parties_eq {read written : List RemoteParty} (hread : ∀ party ∈ read, Framed party)
    (hwritten : ∀ party ∈ written, Framed party) (hlength : written.length ≤ read.length)
    (h : (read.flatMap request).flatten <+: (written.flatMap request).flatten) :
    read = written := by
  induction written generalizing read with
  | nil =>
    cases read with
    | nil => rfl
    | cons party read =>
      rw [List.flatMap_cons, List.flatten_append, List.flatMap_nil, List.flatten_nil,
        List.prefix_nil, List.append_eq_nil_iff] at h
      exact absurd h.1 (request_ne_nil (hread party List.mem_cons_self))
  | cons other written ih =>
    cases read with
    | nil => simp at hlength
    | cons party read =>
      rw [List.flatMap_cons, List.flatMap_cons, List.flatten_append, List.flatten_append] at h
      obtain ⟨hparty, hrest⟩ := request_cancel (hread party List.mem_cons_self)
        (hwritten other List.mem_cons_self) h
      have hlength' : written.length ≤ read.length := by simpa using hlength
      rw [hparty, ih (fun p hp => hread p (List.mem_cons_of_mem _ hp))
        (fun p hp => hwritten p (List.mem_cons_of_mem _ hp)) hlength' hrest]

end Framing

section Script
variable {earlier : List (Event Script)}

def statusLine {β : Type} : Script β → β → List (List Char)
  | .readline, line => [line]
  | _, _ => []

/-- The status lines the script has read. -/
def heard (events : List (Event Script)) : List (List Char) :=
  events.flatMap fun
    | .answered c answer => statusLine c answer
    | .issued _ => []

theorem written_append (first second : List (Event Script)) :
    written (first ++ second) = written first ++ written second := List.flatMap_append

theorem heard_append (first second : List (Event Script)) :
    heard (first ++ second) = heard first ++ heard second := List.flatMap_append

/-- The script has had these parties accepted. -/
structure HadAccepted (parties : List RemoteParty) (events : List (Event Script)) : Prop where
  written : written events = parties.flatMap request
  heard : heard events = List.replicate parties.length quoteOk
  fits : ∀ party ∈ parties, party.quote.length < 2 ^ 32

section Accepted
variable {parties : List RemoteParty} {later : List (Event Script)}

theorem HadAccepted.cons {party : RemoteParty}
    (hwritten : QuoteFile.written earlier = request party)
    (hheard : QuoteVetting.heard earlier = [quoteOk]) (hfits : party.quote.length < 2 ^ 32)
    (h : HadAccepted parties later) : HadAccepted (party :: parties) (earlier ++ later) := by
  constructor
  · rw [written_append, hwritten, h.written, List.flatMap_cons]
  · rw [heard_append, hheard, h.heard, List.length_cons, List.replicate_succ,
      List.singleton_append]
  · exact List.forall_mem_cons.mpr ⟨hfits, h.fits⟩

theorem HadAccepted.after (hwritten : QuoteFile.written earlier = [])
    (hheard : QuoteVetting.heard earlier = []) (h : HadAccepted parties later) :
    HadAccepted parties (earlier ++ later) := by
  constructor
  · rw [written_append, hwritten, h.written, List.nil_append]
  · rw [heard_append, hheard, h.heard, List.nil_append]
  · exact h.fits

end Accepted

/-- A script that returns `true` has read a status line for each party. -/
theorem verifyAttestations_accepts (parties : List RemoteParty) :
    wp tape (fun ok _ events => ok = true → HadAccepted parties events)
      (verifyAttestations parties) () [] := by
  induction parties with
  | nil => exact fun _ => ⟨rfl, rfl, by simp⟩
  | cons party parties ih =>
    simp only [verifyAttestations, wp_bind, wp_tape_issue, wp_ite, wp_pure, Bool.false_eq_true,
      false_implies, implies_true, true_and]
    intro _ _ hfits _ _ status hstatus
    refine wp_tape_from ih fun ok _ later haccepted hok => ?_
    refine HadAccepted.cons rfl ?_ (Nat.not_le.mp hfits) (haccepted hok)
    rw [← not_not.mp hstatus]
    rfl

/-- What the script has found where it returns `true`. -/
structure Approves (events : List (Event Script)) (playerMrenclave operatorMrenclave : Bytes)
    (text : List Char) (entries : List (Bytes × Bytes)) (last : Bytes × Bytes) : Prop where
  player : .answered (.getMrenclave playerBinary) (some playerMrenclave) ∈ events
  operator : .answered (.getMrenclave operatorBinary) (some operatorMrenclave) ∈ events
  read : .answered .read (some text) ∈ events
  parsed : parseQuotesFile text = some (entries ++ [last])
  accepted : HadAccepted (partiesOf playerMrenclave operatorMrenclave entries last) events

theorem checkQuotesAsPlayer_approves :
    wp tape (fun ok _ events => ok = true → ∃ playerMrenclave operatorMrenclave text entries last,
      Approves events playerMrenclave operatorMrenclave text entries last)
      checkQuotesAsPlayer () [] := by
  simp only [checkQuotesAsPlayer, wp_bind, wp_tape_issue]
  intro playerMrenclave
  cases playerMrenclave with
  | none => simp
  | some playerMrenclave =>
    simp only [wp_bind, wp_tape_issue]
    intro operatorMrenclave
    cases operatorMrenclave with
    | none => simp
    | some operatorMrenclave =>
      simp only [wp_bind, wp_tape_issue]
      intro text
      cases text with
      | none => simp
      | some text =>
        dsimp only
        cases hparsed : parseQuotesFile text with
        | none => simp
        | some parsed =>
          rcases List.eq_nil_or_concat parsed with rfl | ⟨entries, last, rfl⟩
          · simp
          · simp only [List.concat_eq_append, List.dropLast_concat, List.getLast?_append,
              List.getLast?_singleton, Option.some_or]
            refine wp_tape_from (verifyAttestations_accepts _) fun ok _ later haccepted hok => ?_
            refine ⟨playerMrenclave, operatorMrenclave, text, entries, last, ?_⟩
            constructor
            · simp
            · simp
            · simp
            · rw [hparsed, List.concat_eq_append]
            · exact HadAccepted.after rfl rfl (haccepted hok)

/-- What the script has found at the operator where it returns `true`. -/
structure ApprovesPlayers (events : List (Event Script)) (playerMrenclave : Bytes)
    (text : List Char) (entries : List (Bytes × Bytes)) : Prop where
  player : .answered (.getMrenclave playerBinary) (some playerMrenclave) ∈ events
  read : .answered .read (some text) ∈ events
  parsed : parseQuotesFile text = some entries
  accepted : HadAccepted (entries.map fun entry => ⟨playerMrenclave, entry.1, entry.2⟩) events

theorem checkQuotesAsOperator_approves :
    wp tape (fun ok _ events => ok = true → ∃ playerMrenclave text entries,
      ApprovesPlayers events playerMrenclave text entries) checkQuotesAsOperator () [] := by
  simp only [checkQuotesAsOperator, wp_bind, wp_tape_issue]
  intro playerMrenclave
  cases playerMrenclave with
  | none => simp
  | some playerMrenclave =>
    simp only [wp_bind, wp_tape_issue]
    intro text
    cases text with
    | none => simp
    | some text =>
      dsimp only
      cases hparsed : parseQuotesFile text with
      | none => simp
      | some entries =>
        refine wp_tape_from (verifyAttestations_accepts _) fun ok _ later haccepted hok => ?_
        refine ⟨playerMrenclave, text, entries, ?_⟩
        constructor
        · simp
        · simp
        · exact hparsed
        · exact HadAccepted.after rfl rfl (haccepted hok)

end Script

section Rounds
variable {events later : List (Event Checker)} {bytes : Bytes}

def bytesRead {β : Type} : Checker β → β → Bytes
  | .fread _, bytes => bytes.val
  | _, _ => []

/-- The bytes the checker has read. -/
def readIn (events : List (Event Checker)) : Bytes :=
  events.flatMap fun
    | .answered c answer => bytesRead c answer
    | .issued _ => []

def line {β : Type} : Checker β → List (List Char)
  | .fprintf text => [text]
  | _ => []

/-- The lines the checker has begun to write. -/
def said (events : List (Event Checker)) : List (List Char) :=
  events.flatMap fun
    | .issued c => line c
    | .answered _ _ => []

theorem readIn_append (first second : List (Event Checker)) :
    readIn (first ++ second) = readIn first ++ readIn second := List.flatMap_append

theorem said_append (first second : List (Event Checker)) :
    said (first ++ second) = said first ++ said second := List.flatMap_append

/-- The report in a quote is one of the party's enclave, not built for debugging. -/
structure Reports (party : RemoteParty) (quote3 : Bytes) : Prop where
  mrEnclave : mrEnclave quote3 = party.mrenclave
  reportData : quotedReportData quote3 = party.reportData
  release : attributesFlags quote3 &&& sgxFlagsDebug = 0

/-- The report was read in the quote and in what lies behind a quote that ends before it. -/
def ReportRead (party : RemoteParty) (events : List (Event Checker)) : Prop :=
  ∃ (address : Pointer) (past : FixedBytes (reportEnd - party.quote.length)),
    .answered (.readPast (address + party.quote.length) (reportEnd - party.quote.length)) past ∈
      events ∧ Reports party (party.quote ++ past.val)

/-- The quote of the party has been verified, and it holds the report. -/
structure Vouched (party : RemoteParty) (events : List (Event Checker)) : Prop where
  authentic : .answered (.sgxQvVerifyQuote party.quote) (0, 0) ∈ events
  report : ReportRead party events

theorem Vouched.mono {party : RemoteParty} (h : Vouched party events) (hlater : events ⊆ later) :
    Vouched party later := by
  obtain ⟨address, past, hpast, hreports⟩ := h.report
  exact ⟨hlater h.authentic, address, past, hlater hpast, hreports⟩

/-- A quote that does not end before the report holds all of it. -/
theorem Vouched.reports {party : RemoteParty} (h : Vouched party events)
    (hlength : reportEnd ≤ party.quote.length) : Reports party party.quote := by
  obtain ⟨address, past, -, hreports⟩ := h.report
  have hpast : past.val = [] := by
    rw [← List.length_eq_zero_iff, past.property]
    omega
  rwa [hpast, List.append_nil] at hreports

/-- A round that accepts the party. -/
structure AcceptsParty (party : RemoteParty) (events : List (Event Checker)) : Prop where
  framed : Framed party
  read : readIn events = (request party).flatten
  said : said events = [quoteOk]
  vouched : Vouched party events

/-- The bytes read by a round that has said nothing. -/
structure Reads (bytes : Bytes) (events : List (Event Checker)) : Prop where
  read : readIn events = bytes
  silent : said events = []

/-- Where a round may stop. -/
def Rests (_ : Unit) (events : List (Event Checker)) : Prop :=
  said events = [] ∨ ∃ party, AcceptsParty party events

namespace Reads

theorem quiet (h : Reads bytes events) (hread : readIn later = []) (hsaid : said later = []) :
    Reads bytes (events ++ later) := by
  constructor
  · rw [readIn_append, h.read, hread, List.append_nil]
  · rw [said_append, h.silent, hsaid, List.append_nil]

theorem rests {β : Type} {c : Checker β} (h : Reads bytes events) (hc : line c = []) :
    Rests () (events ++ [.issued c]) := by
  refine .inl ?_
  rw [said_append, h.silent, List.nil_append, said, List.flatMap_singleton]
  exact hc

variable {α : Type} {post : α → Unit → List (Event Checker) → Prop}

theorem exit (h : Reads bytes events) :
    wp (stopping Rests) post (Host.exit : CheckerCode α) () events := by
  simp only [Host.exit, wp_bind, wp_stopping_issue]
  exact ⟨h.rests rfl, fun answer => answer.elim⟩

theorem freadAll {size : Nat} {post : FixedBytes size → Unit → List (Event Checker) → Prop}
    (h : Reads bytes events)
    (hpost : ∀ (more : FixedBytes size) (events' : List (Event Checker)),
      Reads (bytes ++ more.val) events' → post more () events') :
    wp (stopping Rests) post (Host.freadAll size) () events := by
  simp only [Host.freadAll, wp_bind, wp_stopping_issue, wp_dite, wp_pure]
  refine ⟨h.rests rfl, fun answer => ⟨fun hlength => hpost _ _ ?_, fun _ => ?_⟩⟩
  · constructor
    · rw [readIn_append, h.read]
      simp [readIn, bytesRead]
    · rw [said_append, h.silent]
      rfl
  · exact exit ⟨by rw [readIn_append, h.read], by rw [said_append, h.silent]; rfl⟩

theorem verifyQuoteAuthenticity {quote : Bytes} {post : Int32 → Unit → List (Event Checker) → Prop}
    (h : Reads bytes events)
    (hfailed : ∀ (ret : Int32) (events' : List (Event Checker)), ret ≠ 0 → Reads bytes events' →
      post ret () events')
    (hpost : ∀ events' : List (Event Checker), Reads bytes events' →
      .answered (.sgxQvVerifyQuote quote) (0, 0) ∈ events' → post 0 () events') :
    wp (stopping Rests) post (Host.verifyQuoteAuthenticity quote) () events := by
  simp only [Host.verifyQuoteAuthenticity, wp_bind, wp_stopping_issue]
  refine ⟨h.rests rfl, fun answer => ?_⟩
  have hquiet : Reads bytes (events ++ [.issued (.sgxQvVerifyQuote quote),
      .answered (.sgxQvVerifyQuote quote) answer]) := h.quiet rfl rfl
  obtain ⟨ret, result⟩ := answer
  simp only [wp_ite, wp_pure]
  refine ⟨fun _ => hfailed _ _ (by decide) hquiet, fun hret => ?_⟩
  refine ⟨fun _ => hfailed _ _ (by decide) hquiet, fun hresult => hpost _ hquiet ?_⟩
  obtain rfl := not_not.mp hret
  obtain rfl := not_not.mp hresult
  simp

theorem checkReportCorrect (party : RemoteParty) {address : Pointer} {mrenclave : FixedBytes 32}
    {reportData : ReportData} {post : Int32 → Unit → List (Event Checker) → Prop}
    (hmrenclave : party.mrenclave = mrenclave.val) (hreportData : party.reportData = reportData.val)
    (h : Reads bytes events)
    (hfailed : ∀ (ret : Int32) (events' : List (Event Checker)), ret ≠ 0 → Reads bytes events' →
      post ret () events')
    (hpost : ∀ events' later : List (Event Checker), events' = events ++ later →
      Reads bytes events' → ReportRead party events' → post 0 () events') :
    wp (stopping Rests) post (Host.checkReportCorrect address party.quote mrenclave reportData) ()
      events := by
  simp only [Host.checkReportCorrect, wp_bind, wp_stopping_issue]
  refine ⟨h.rests rfl, fun past => ?_⟩
  have hquiet : Reads bytes (events ++ [.issued (.readPast (address + party.quote.length)
      (reportEnd - party.quote.length)), .answered (.readPast (address + party.quote.length)
        (reportEnd - party.quote.length)) past]) := h.quiet rfl rfl
  simp only [wp_ite, wp_pure]
  refine ⟨fun _ => hfailed _ _ (by decide) hquiet, fun hsame => ?_⟩
  refine ⟨fun _ => hfailed _ _ (by decide) hquiet, fun hdata => ?_⟩
  refine ⟨fun _ => hfailed _ _ (by decide) hquiet, fun hflags => ?_⟩
  refine hpost _ _ rfl hquiet ⟨address, past, (by simp), ?_, ?_, not_not.mp hflags⟩
  · rw [hmrenclave]
    exact (not_not.mp hsame).symm
  · rw [hreportData]
    exact (not_not.mp hdata).symm

/-- The line that ends a round. -/
theorem concludes {party : RemoteParty} (h : Reads (request party).flatten events)
    (hframed : Framed party) (hvouched : Vouched party events) :
    Rests () (events ++ [.issued (.fprintf quoteOk)]) ∧
      ∀ answer, ∃ party, AcceptsParty party
        (events ++ [.issued (.fprintf quoteOk), .answered (.fprintf quoteOk) answer]) := by
  have haccepts : ∀ rest : List (Event Checker), readIn rest = [] → said rest = [] →
      AcceptsParty party (events ++ .issued (.fprintf quoteOk) :: rest) := by
    intro rest hread hsaid
    constructor
    · exact hframed
    · rw [readIn_append, h.read, readIn, List.flatMap_cons, List.nil_append, ← readIn, hread,
        List.append_nil]
    · rw [said_append, h.silent, said, List.flatMap_cons, ← said, hsaid]
      rfl
    · exact hvouched.mono (List.subset_append_left _ _)
  exact ⟨.inr ⟨party, haccepts [] rfl rfl⟩, fun _ => ⟨party, haccepts _ rfl rfl⟩⟩

end Reads

/-- What the four reads of a round have brought is a request, as it was written. -/
theorem framed_of_reads (mrenclave : FixedBytes 32) (reportData : ReportData)
    (quoteLength : FixedBytes 4) (quote : FixedBytes (leValue quoteLength.val)) :
    Framed ⟨mrenclave.val, reportData.val, quote.val⟩ ∧
      (request ⟨mrenclave.val, reportData.val, quote.val⟩).flatten =
        mrenclave.val ++ reportData.val ++ quoteLength.val ++ quote.val := by
  have hlength : leBytes 4 quote.val.length = quoteLength.val := by
    have hvalue := leBytes_leValue quoteLength.val
    rwa [quoteLength.property, ← quote.property] at hvalue
  have hlt : quote.val.length < 2 ^ 32 := by
    have hlt := leValue_lt quoteLength.val
    rwa [quoteLength.property, ← quote.property] at hlt
  refine ⟨⟨mrenclave.property, reportData.property, hlt⟩, ?_⟩
  simp [request, hlength]

/-- A round says that a quote is fine only of a party it vouches for. -/
theorem checkQuote_accepts :
    wp (stopping Rests) (fun _ _ events => ∃ party, AcceptsParty party events)
      checkQuote () [] := by
  simp only [checkQuote, wp_bind]
  have hstart : Reads [] [] := ⟨rfl, rfl⟩
  refine hstart.freadAll fun mrenclave first hfirst => ?_
  refine hfirst.freadAll fun reportData second hsecond => ?_
  refine hsecond.freadAll fun quoteLength third hthird => ?_
  simp only [wp_stopping_issue]
  refine ⟨hthird.rests rfl, fun address => ?_⟩
  cases address with
  | none => exact (hthird.quiet rfl rfl).exit
  | some address =>
    simp only [wp_bind]
    refine (hthird.quiet rfl rfl).freadAll fun quote fourth hfourth => ?_
    let party : RemoteParty := ⟨mrenclave.val, reportData.val, quote.val⟩
    refine hfourth.verifyQuoteAuthenticity (fun ret fifth hret hfifth => ?_)
      fun fifth hfifth hauthentic => ?_
    · rw [if_pos hret, wp_bind]
      exact hfifth.exit
    · simp only [ne_eq, not_true_eq_false, ite_false, wp_bind]
      refine Reads.checkReportCorrect party rfl rfl hfifth
        (fun ret sixth hret hsixth => ?_) fun sixth later hlater hsixth hreport => ?_
      · rw [if_pos hret, wp_bind]
        exact hsixth.exit
      · simp only [not_true_eq_false, ite_false, wp_bind, wp_stopping_issue]
        refine ⟨hsixth.rests rfl, fun _ => ?_⟩
        have hquiet : Reads _ (sixth ++ [.issued (.free address), .answered (.free address) ()]) :=
          hsixth.quiet rfl rfl
        obtain ⟨hframed, hrequest⟩ := framed_of_reads mrenclave reportData quoteLength quote
        rw [List.nil_append, ← hrequest] at hquiet
        have hvouched : Vouched party sixth :=
          ⟨hlater ▸ List.mem_append_left _ hauthentic, hreport⟩
        exact hquiet.concludes hframed (hvouched.mono (List.subset_append_left _ _))

end Rounds

section Session
variable {steps : List (Step quoteChecker)} {state : Unit}

/-- The checker has read the requests of these parties, said that their quotes are fine, and
begun on the rest. -/
structure Served (parties : List RemoteParty) (events : List (Event Checker)) (rest : Bytes) :
    Prop where
  framed : ∀ party ∈ parties, Framed party
  vouched : ∀ party ∈ parties, Vouched party events
  read : readIn events = (parties.flatMap request).flatten ++ rest
  said : said events = List.replicate parties.length quoteOk

section Rounds
variable {parties : List RemoteParty} {earlier later : List (Event Checker)}

theorem Served.accepts {party : RemoteParty} (h : Served parties earlier [])
    (haccepts : AcceptsParty party later) :
    Served (parties ++ [party]) (earlier ++ later) [] := by
  constructor
  · exact List.forall_mem_append.mpr ⟨h.framed, List.forall_mem_singleton.mpr haccepts.framed⟩
  · intro other hother
    rcases List.mem_append.mp hother with hother | hother
    · exact (h.vouched other hother).mono (List.subset_append_left _ _)
    · rw [List.mem_singleton.mp hother]
      exact haccepts.vouched.mono (List.subset_append_right _ _)
  · rw [readIn_append, h.read, haccepts.read]
    simp
  · rw [said_append, h.said, haccepts.said, List.length_append, List.length_singleton,
      List.replicate_succ']

theorem Served.begins (h : Served parties earlier []) (hsilent : QuoteVetting.said later = []) :
    Served parties (earlier ++ later) (readIn later) := by
  constructor
  · exact h.framed
  · exact fun party hparty => (h.vouched party hparty).mono (List.subset_append_left _ _)
  · rw [readIn_append, h.read, List.append_nil]
  · rw [said_append, h.said, hsilent, List.append_nil]

end Rounds

theorem run_served (run : Run quoteChecker () steps state) :
    ∃ parties, Served parties (eventsOf steps) [] := by
  induction run with
  | start => exact ⟨[], (by simp), (by simp), rfl, rfl⟩
  | @next steps step _ valid finished ih =>
    obtain ⟨parties, hserved⟩ := ih
    obtain ⟨ret, hret⟩ := Option.isSome_iff_exists.mp finished
    obtain ⟨party, haccepts⟩ := (Exec.stopped valid checkQuote_accepts).1 ret hret
    rw [eventsOf_append]
    exact ⟨parties ++ [party], hserved.accepts haccepts⟩

/-- The checker has vouched for every party of which it says that its quote is fine. -/
theorem trace_served (trace : Trace quoteChecker () steps state) :
    ∃ parties rest, Served parties (eventsOf steps) rest := by
  cases trace with
  | resting run =>
    obtain ⟨parties, hserved⟩ := run_served run
    exact ⟨parties, [], hserved⟩
  | @inside steps step run valid waiting =>
    obtain ⟨parties, hserved⟩ := run_served run
    rw [eventsOf_append]
    rcases (Exec.stopped valid checkQuote_accepts).2 waiting with hsilent | ⟨party, haccepts⟩
    · exact ⟨parties, _, hserved.begins hsilent⟩
    · exact ⟨parties ++ [party], [], hserved.accepts haccepts⟩

/-- The checker has vouched for every party the script has had accepted: the two agree on the
requests because each says where it ends. -/
theorem accepted_vouched {parties : List RemoteParty} {scriptEvents : List (Event Script)}
    (haccepted : HadAccepted parties scriptEvents)
    (hfixed : ∀ party ∈ parties, party.mrenclave.length = 32 ∧ party.reportData.length = 64)
    (trace : Trace quoteChecker () steps state)
    (hstdin : readIn (eventsOf steps) <+: (written scriptEvents).flatten)
    (hstdout : (heard scriptEvents).flatten <+: (said (eventsOf steps)).flatten) :
    ∀ party ∈ parties, Vouched party (eventsOf steps) := by
  obtain ⟨served, rest, hserved⟩ := trace_served trace
  have hframed : ∀ party ∈ parties, Framed party := fun party hparty =>
    ⟨(hfixed party hparty).1, (hfixed party hparty).2, haccepted.fits party hparty⟩
  have hcount : parties.length ≤ served.length := by
    have hlength := hstdout.length_le
    rw [haccepted.heard, hserved.said] at hlength
    simpa [quoteOk] using hlength
  have hread : (served.flatMap request).flatten <+: (parties.flatMap request).flatten := by
    rw [haccepted.written, hserved.read] at hstdin
    exact (List.prefix_append _ rest).trans hstdin
  rw [← parties_eq hserved.framed hframed hcount hread]
  exact hserved.vouched

end Session

end Auntie.Guarantees.QuoteVetting
