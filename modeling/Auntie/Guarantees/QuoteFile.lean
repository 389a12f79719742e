import Auntie.Source.Host.Quotes

/-!
# What the script reads is what the host printed

The file holds one line for each quote that was presented, and the script takes every line
apart into the report data and the quote it was printed for, an empty quote included.
-/

namespace Auntie.Guarantees.QuoteFile
open Auntie.Source Auntie.Source.Host Auntie.Interaction Text

/-- The line of a quote, without the newline. -/
def lineOf (entry : Bytes × Bytes) : List Char := toHex entry.1 ++ ',' :: ' ' :: toHex entry.2

/-- The file after these quotes. -/
def fileOf (entries : List (Bytes × Bytes)) : List Char :=
  entries.flatMap fun entry => lineOf entry ++ ['\n']

theorem fileOf_append (first second : List (Bytes × Bytes)) :
    fileOf (first ++ second) = fileOf first ++ fileOf second := List.flatMap_append

section Print
variable {text : List Char}

theorem fprintf_spec {written : List Char} (size : Int32) {post : Int32 → QuotesFile → Unit → Prop}
    (hsize : size.toInt = written.length) (hfailed : ∀ ret last, ret ≠ size → post ret last ())
    (hwritten : post size (some (text ++ written)) ()) :
    wp ({} : Monitor Libc QuotesFile Unit) post (fprintf written) (some text) () := by
  simp only [fprintf, wp_bind, wp_issue, wp_modify, wp_pure]
  refine ⟨trivial, fun ret => ?_⟩
  by_cases hret : ret = size
  · rw [hret, Option.map_some, hsize, Int.toNat_natCast, List.take_length]
    exact hwritten
  · exact hfailed _ _ hret

theorem printHex_spec (bytes : Bytes) :
    wp ({} : Monitor Libc QuotesFile Unit)
      (fun error last _ => error ≠ some 0 ∧ (error = none → last = some (text ++ toHex bytes)))
      (printHex bytes) (some text) () := by
  induction bytes generalizing text with
  | nil => exact ⟨(by simp), fun _ => by simp [toHex]⟩
  | cons b bytes ih =>
    simp only [printHex, wp_bind]
    refine fprintf_spec 2 rfl (fun ret last hret => ?_) ?_
    · simp only [wp_ite, wp_pure]
      exact ⟨fun _ => ⟨by decide, (by simp)⟩, fun h => absurd hret h⟩
    · simp only [wp_ite, wp_pure]
      refine ⟨fun h => absurd rfl h, fun _ => wp_mono ?_ ih⟩
      rintro error last _ ⟨herror, hlast⟩
      refine ⟨herror, fun hnone => ?_⟩
      rw [hlast hnone, List.append_assoc, toHex, toHex, List.flatMap_cons]

/-- A call that returns zero has written the line. -/
theorem ocallPrintQuote_spec (quote : Bytes) (reportData : ReportData) :
    wp ({} : Monitor Libc QuotesFile Unit)
      (fun ret last _ => ret = 0 → last = some (text ++ fileOf [(reportData.val, quote)]))
      (ocallPrintQuote quote reportData) (some text) () := by
  simp only [ocallPrintQuote, wp_bind, wp_get, Option.isNone_some, Bool.false_eq_true, ite_false]
  refine wp_mono ?_ (printHex_spec reportData.val)
  rintro error last _ ⟨herror, hlast⟩
  cases error with
  | some error => exact fun h => absurd (congrArg some h) herror
  | none =>
    rw [hlast rfl]
    simp only [wp_bind]
    refine fprintf_spec 2 rfl (fun ret last hret => ?_) ?_
    · simp only [wp_ite, wp_pure]
      exact ⟨fun _ h => absurd h eio_error, fun h => absurd hret h⟩
    · simp only [wp_ite, wp_pure, wp_bind]
      refine ⟨fun h => absurd rfl h, fun _ => wp_mono ?_ (printHex_spec quote)⟩
      rintro error last _ ⟨herror, hlast⟩
      cases error with
      | some error => exact fun h => absurd (congrArg some h) herror
      | none =>
        rw [hlast rfl]
        simp only [wp_bind]
        refine fprintf_spec 1 rfl (fun ret last hret => ?_) ?_
        · simp only [wp_ite, wp_pure]
          exact ⟨fun _ h => absurd h eio_error, fun h => absurd hret h⟩
        · simp only [wp_ite, wp_pure]
          refine ⟨fun h => absurd rfl h, fun _ _ => ?_⟩
          simp [fileOf, lineOf]

end Print

section Run
variable {init last : QuotesFile} {steps : List (Step quotesHost)}

/-- The entry of the file a call is for. -/
def entryOf (printed : Bytes × ReportData) : Bytes × Bytes := (printed.2.val, printed.1)

/-- After calls that all returned zero the file holds a line for each. -/
theorem file_of_run (run : Run quotesHost (some []) steps last)
    {printed : List (Bytes × ReportData)} (hops : steps.map Step.op = printed)
    (hzero : ∀ step ∈ steps, step.result = some (0 : Int32)) :
    last = some (fileOf (printed.map entryOf)) := by
  subst hops
  induction run with
  | start => rfl
  | @next steps step _ hvalid _ ih =>
    have hbefore := ih fun other hother => hzero other (List.mem_append_left _ hother)
    have hresult := hzero step (by simp)
    have hexec : Exec (ocallPrintQuote step.op.1 step.op.2) step.before step.events step.after
        (some 0) := hresult ▸ hvalid
    rw [hbefore] at hexec
    have hprinted : ((steps ++ [step]).map Step.op).map entryOf =
        (steps.map Step.op).map entryOf ++ [entryOf step.op] := by
      rw [List.map_append]
      exact List.map_append
    rw [hexec.returned (ocallPrintQuote_spec step.op.1 step.op.2) rfl, hprinted, fileOf_append]
    rfl

/-- The calls the host has served, each with what it returned. -/
def servedBy (steps : List (Step quotesHost)) : List ((Bytes × ReportData) × Option Int32) :=
  steps.map fun step => (step.op, step.result)

theorem file_of_served (run : Run quotesHost (some []) steps last)
    {printed : List (Bytes × ReportData)} (hserved : servedBy steps = printed.map (·, some 0)) :
    last = some (fileOf (printed.map entryOf)) := by
  refine file_of_run run ?_ fun step hstep => ?_
  · have hops : (servedBy steps).map Prod.fst = steps.map Step.op := by
      rw [servedBy, List.map_map]
      rfl
    rw [← hops, hserved, List.map_map]
    exact List.map_id _
  · have hmem : (step.op, step.result) ∈ servedBy steps := List.mem_map_of_mem hstep
    rw [hserved] at hmem
    obtain ⟨shown, -, hpair⟩ := List.mem_map.mp hmem
    exact (congrArg Prod.snd hpair).symm

end Run

section Parse

theorem parseLine_lineOf (entry : Bytes × Bytes) :
    parseLine (splitPair ',' ' ' (lineOf entry ++ ['\n'])) = some entry := by
  have hcomma : ',' ∉ toHex entry.1 := not_mem_toHex (by decide)
  have hback : ',' ∉ toHex entry.2 ++ ['\n'] := by
    rw [List.mem_append, not_or]
    exact ⟨not_mem_toHex (by decide), by decide⟩
  have hempty : fromHex [] = some [] := rfl
  have hnewline : fromHex ['\n'] = some [] := by decide
  have hfirst := fromHex_toHex entry.1 hempty
  rw [List.append_nil] at hfirst
  rw [lineOf, List.append_assoc, List.cons_append, List.cons_append, splitPair_part hcomma,
    splitPair_plain hback]
  simp [parseLine, hfirst, fromHex_toHex entry.2 hnewline]

/-- Reading a file back gives the entries it was written for. -/
theorem parseQuotesFile_fileOf (entries : List (Bytes × Bytes)) :
    parseQuotesFile (fileOf entries) = some entries := by
  have hline (entry : Bytes × Bytes) {c : Char} (hc : hexValue c = none) (hcomma : c ≠ ',')
      (hspace : c ≠ ' ') : c ∉ lineOf entry := by
    simp only [lineOf, List.mem_append, List.mem_cons, not_or]
    exact ⟨not_mem_toHex hc, hcomma, hspace, not_mem_toHex hc⟩
  have hplain : '\r' ∉ fileOf entries := by
    intro hmem
    obtain ⟨entry, -, hentry⟩ := List.mem_flatMap.mp hmem
    rcases List.mem_append.mp hentry with hentry | hentry
    · exact hline entry (by decide) (by decide) (by decide) hentry
    · exact absurd hentry (by decide)
  rw [parseQuotesFile, universalNewlines_plain hplain, fileOf, readlines_flatMap lineOf fun entry =>
    hline entry (by decide) (by decide) (by decide)]
  clear hplain
  induction entries with
  | nil => rfl
  | cons entry entries ih => rw [List.map_cons, List.mapM_cons, parseLine_lineOf, ih]; rfl

end Parse

section Script
variable {playerMrenclave operatorMrenclave : Bytes} {text : List Char}

def asked {β : Type} : Script β → List Bytes
  | .write bytes => [bytes]
  | _ => []

/-- What the quote checker is given. -/
def written (events : List (Event Script)) : List Bytes :=
  events.flatMap fun
    | .answered c _ => asked c
    | .issued _ => []

/-- The four writes for a party. -/
def request (party : RemoteParty) : List Bytes :=
  [party.mrenclave, party.reportData, leBytes 4 party.quote.length, party.quote]

/-- The measurements of the two enclaves, the file, and a checker that accepts. -/
def Accepted (playerMrenclave operatorMrenclave : Bytes) (text : List Char) {β : Type} :
    Script β → β → Prop
  | .getMrenclave enclaveBinary, mrenclave =>
    (enclaveBinary = playerBinary → mrenclave = some playerMrenclave) ∧
      (enclaveBinary = operatorBinary → mrenclave = some operatorMrenclave)
  | .read, found => found = some text
  | .write _, _ => True
  | .readline, status => status = quoteOk

def checking (playerMrenclave operatorMrenclave : Bytes) (text : List Char) :
    Contract Script Unit (List Bytes) where
  answered requests c _ := requests ++ asked c
  assumes _ c answer := Accepted playerMrenclave operatorMrenclave text c answer

theorem foldl_checking (requests : List Bytes) (events : List (Event Script)) :
    events.foldl (checking playerMrenclave operatorMrenclave text).observe requests =
      requests ++ written events := by
  induction events generalizing requests with
  | nil => simp [written]
  | cons event events ih =>
    rw [List.foldl_cons, ih]
    cases event with
    | issued c => rfl
    | answered c answer => simp [Monitor.observe, checking, written, List.append_assoc]

theorem verifyAttestations_spec {parties : List RemoteParty} {requests : List Bytes}
    (hsize : ∀ party ∈ parties, party.quote.length < 2 ^ 32) :
    (checking playerMrenclave operatorMrenclave text).wp
      (fun ok _ after => ok = true ∧ after = requests ++ parties.flatMap request)
      (verifyAttestations parties) () requests := by
  induction parties generalizing requests with
  | nil => exact ⟨rfl, by simp⟩
  | cons party parties ih =>
    have hfits : ¬ party.quote.length ≥ 2 ^ 32 := Nat.not_le.mpr (hsize party List.mem_cons_self)
    simp only [verifyAttestations, Contract.wp_bind, Contract.wp_issue, if_neg hfits,
      Contract.wp_ite, Contract.wp_pure]
    refine ⟨trivial, fun _ _ => ⟨trivial, fun _ _ => ⟨trivial, fun _ _ => ⟨trivial, fun _ _ => ?_⟩⟩⟩⟩
    refine ⟨trivial, fun status hstatus => ⟨fun hrefused => absurd hstatus hrefused, fun _ => ?_⟩⟩
    refine Contract.wp_mono ?_ (ih fun other hother => hsize other (List.mem_cons_of_mem _ hother))
    rintro ok _ after ⟨hok, hafter⟩
    exact ⟨hok, by rw [hafter]; simp [checking, asked, request, List.append_assoc]⟩

/-- The parties of a file whose last entry is that of the operator. -/
def partiesOf (playerMrenclave operatorMrenclave : Bytes) (entries : List (Bytes × Bytes))
    (operator : Bytes × Bytes) : List RemoteParty :=
  entries.map (fun entry => ⟨playerMrenclave, entry.1, entry.2⟩) ++
    [⟨operatorMrenclave, operator.1, operator.2⟩]

theorem checkQuotesAsPlayer_spec {entries : List (Bytes × Bytes)} {operator : Bytes × Bytes}
    (htext : text = fileOf (entries ++ [operator]))
    (hsize : ∀ entry ∈ entries ++ [operator], entry.2.length < 2 ^ 32) :
    (checking playerMrenclave operatorMrenclave text).wp
      (fun ok _ after => ok = true ∧
        after = (partiesOf playerMrenclave operatorMrenclave entries operator).flatMap request)
      checkQuotesAsPlayer () [] := by
  have hparsed : parseQuotesFile text = some (entries ++ [operator]) := by
    rw [htext, parseQuotesFile_fileOf]
  simp only [checkQuotesAsPlayer, Contract.wp_bind, Contract.wp_issue]
  refine ⟨trivial, fun mrenclave hplayer => ?_⟩
  obtain rfl := hplayer.1 rfl
  simp only [Contract.wp_bind, Contract.wp_issue]
  refine ⟨trivial, fun mrenclave hoperator => ?_⟩
  obtain rfl := hoperator.2 rfl
  simp only [Contract.wp_bind, Contract.wp_issue]
  refine ⟨trivial, fun found hfound => ?_⟩
  obtain rfl : found = some text := hfound
  simp only [hparsed, List.dropLast_concat, List.getLast?_append, List.getLast?_singleton,
    Option.some_or]
  refine Contract.wp_mono ?_ (verifyAttestations_spec fun party hparty => ?_)
  · rintro ok _ after ⟨hok, hafter⟩
    exact ⟨hok, hafter⟩
  · rcases List.mem_append.mp hparty with hparty | hparty
    · obtain ⟨entry, hentry, rfl⟩ := List.mem_map.mp hparty
      exact hsize entry (List.mem_append_left _ hentry)
    · rw [List.mem_singleton.mp hparty]
      exact hsize operator (by simp)

/-- The script on a file of quotes, with a checker that accepts them all. -/
theorem checked_of_exec {events : List (Event Script)} {ok : Bool} {entries : List (Bytes × Bytes)}
    {operator : Bytes × Bytes}
    (hsize : ∀ entry ∈ entries ++ [operator], entry.2.length < 2 ^ 32)
    (hexec : Exec checkQuotesAsPlayer () events () (some ok))
    (hhonours : (checking playerMrenclave operatorMrenclave (fileOf (entries ++ [operator]))).Honours
      [] events) :
    ok = true ∧ written events =
      (partiesOf playerMrenclave operatorMrenclave entries operator).flatMap request := by
  obtain ⟨hok, hwritten⟩ := Contract.returned hexec hhonours (checkQuotesAsPlayer_spec rfl hsize)
  rw [foldl_checking, List.nil_append] at hwritten
  exact ⟨hok, hwritten⟩

end Script

end Auntie.Guarantees.QuoteFile
