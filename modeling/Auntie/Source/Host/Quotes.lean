import Auntie.Interaction.Contract
import Auntie.Source.Common.Enclave
import Auntie.Text

/-!
# The quotes on the host

Embeds `ocall_print_quote` of `common/untrusted/common_ocalls.c` and `tools/check_quotes.py`.
The host writes a line of text for each quote its enclave presents; the script reads the file
back and hands the quotes to the quote checker, a process of its own.

`fprintf` answers with its return value, and writes as many characters of the text; what a
failed call leaves in the file is not tracked. A Python exception ends the script with the
result `false`. Printed text is omitted.
-/

namespace Auntie.Source.Host
open Auntie.Interaction Text

section PrintQuote

inductive Libc : Type → Type where
  | fprintf (text : List Char) : Libc Int32

/-- `quotes_file`, which may be `NULL`: the text written so far. -/
abbrev QuotesFile := Option (List Char)

abbrev Code := Program Libc QuotesFile

def fprintf (text : List Char) : Code Int32 := do
  let ret ← issue (.fprintf text)
  modify fun file => file.map (· ++ text.take ret.toInt.toNat)
  return ret

/-- Two digits for each byte: an error code, or none. -/
def printHex : Bytes → Code (Option Int32)
  | [] => return none
  | b :: rest => do
    if (← fprintf (hexOf b)) ≠ 2 then
      return some (-eio)
    printHex rest

def ocallPrintQuote (quote : Bytes) (reportData : ReportData) : Code Int32 := do
  if (← get).isNone then
    return -efault
  if let some error ← printHex reportData.val then
    return error
  if (← fprintf [',', ' ']) ≠ 2 then
    return -eio
  if let some error ← printHex quote then
    return error
  if (← fprintf ['\n']) ≠ 1 then
    return -eio
  return 0

/-- The quotes and report data presented to the host, one after the other. -/
def quotesHost : Component Libc QuotesFile :=
  ⟨Bytes × ReportData, Int32, fun (quote, reportData) => ocallPrintQuote quote reportData⟩

end PrintQuote

section CheckQuotes

/-- What the script gets from outside: `none` and a failed status line are exceptions of
their own. -/
inductive Script : Type → Type where
  | getMrenclave (enclaveBinary : String) : Script (Option Bytes)
  | read : Script (Option (List Char))
  | write (bytes : Bytes) : Script Unit
  | readline : Script (List Char)

abbrev ScriptCode := Program Script Unit

/-- What the quote checker is given for one party. -/
structure RemoteParty where
  mrenclave : Bytes
  reportData : Bytes
  quote : Bytes
  deriving DecidableEq

def playerBinary : String := "../auntie_player_tee.signed.so"

def operatorBinary : String := "../auntie_operator_tee.signed.so"

/-- `b"Quote ok\n"`. -/
def quoteOk : List Char := ['Q', 'u', 'o', 't', 'e', ' ', 'o', 'k', '\n']

/-- `(bytes.fromhex(line[0]), bytes.fromhex(line[1]))` for a line that has been split. -/
def parseLine : List (List Char) → Option (Bytes × Bytes)
  | reportData :: quote :: _ => do return (← fromHex reportData, ← fromHex quote)
  | _ => none

def parseQuotesFile (text : List Char) : Option (List (Bytes × Bytes)) :=
  (readlines (universalNewlines text)).mapM fun line => parseLine (splitPair ',' ' ' line)

/-- The four writes for each party, and the answer of the checker. A quote whose length does
not fit four bytes raises an exception between them. -/
def verifyAttestations : List RemoteParty → ScriptCode Bool
  | [] => return true
  | party :: rest => do
    issue (.write party.mrenclave)
    issue (.write party.reportData)
    if party.quote.length ≥ 2 ^ 32 then
      return false
    issue (.write (leBytes 4 party.quote.length))
    issue (.write party.quote)
    let status ← issue .readline
    if status ≠ quoteOk then
      return false
    verifyAttestations rest

/-- The last quote is that of the operator. -/
def checkQuotesAsPlayer : ScriptCode Bool := do
  let some playerMrenclave ← issue (.getMrenclave playerBinary) | return false
  let some operatorMrenclave ← issue (.getMrenclave operatorBinary) | return false
  let some text ← issue .read | return false
  let some reportDataAndQuotes := parseQuotesFile text | return false
  let remoteParties : List RemoteParty := reportDataAndQuotes.dropLast.map
    fun (reportData, quote) => ⟨playerMrenclave, reportData, quote⟩
  let some (operatorReportData, operatorQuote) := reportDataAndQuotes.getLast? | return false
  verifyAttestations (remoteParties ++ [⟨operatorMrenclave, operatorReportData, operatorQuote⟩])

/-- All quotes are those of players. -/
def checkQuotesAsOperator : ScriptCode Bool := do
  let some playerMrenclave ← issue (.getMrenclave playerBinary) | return false
  let some text ← issue .read | return false
  let some reportDataAndQuotes := parseQuotesFile text | return false
  let remoteParties : List RemoteParty := reportDataAndQuotes.map
    fun (reportData, quote) => ⟨playerMrenclave, reportData, quote⟩
  verifyAttestations remoteParties

end CheckQuotes

end Auntie.Source.Host
