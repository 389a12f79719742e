import Auntie.Source.Host.Quotes

/-!
# The quote checker

Embeds `tools/sgx_quote_checker/main.c`, the process `check_quotes.py` hands the quotes to: one
round of its loop is an operation, and `exit` is the call that is never answered.

`fread` answers with the bytes it has read. The fields of a quote are at their offsets in
`sgx_quote3_t`; bytes past the end of the allocation are those `readPast` answers. Text for
`stderr` is omitted.
-/

namespace Auntie.Source.Host
open Auntie.Interaction

section QuoteChecker

/-- The checker's calls. `sgx_qv_verify_quote` answers with its status and the result it has
stored, each zero for success. -/
inductive Checker : Type → Type where
  | fread (size : Nat) : Checker { bytes : Bytes // bytes.length ≤ size }
  | malloc (size : Nat) : Checker (Option Pointer)
  | free (address : Pointer) : Checker Unit
  | readPast (address : Pointer) (count : Nat) : Checker (FixedBytes count)
  | sgxQvVerifyQuote (quote : Bytes) : Checker (UInt32 × UInt32)
  | fprintf (text : List Char) : Checker Unit
  | exit : Checker Empty

abbrev CheckerCode := Program Checker Unit

def exit {α : Type} : CheckerCode α := do
  let answer ← issue .exit
  nomatch answer

/-- Less than `size` bytes end the process. -/
def freadAll (size : Nat) : CheckerCode (FixedBytes size) := do
  let bytes ← issue (.fread size)
  if h : bytes.val.length = size then
    return ⟨bytes.val, h⟩
  else
    exit

def verifyQuoteAuthenticity (quote : Bytes) : CheckerCode Int32 := do
  let (ret, result) ← issue (.sgxQvVerifyQuote quote)
  if ret ≠ 0 then
    return efault
  if result ≠ 0 then
    return einval
  return 0

/-- `report_body.attributes.flags`. -/
def attributesFlags (quote : Bytes) : Nat := leValue ((quote.drop 96).take 8)

/-- `report_body.mr_enclave`. -/
def mrEnclave (quote : Bytes) : Bytes := (quote.drop 112).take 32

/-- `report_body.report_data`. -/
def quotedReportData (quote : Bytes) : Bytes := (quote.drop 368).take 64

/-- Where the report data end. -/
abbrev reportEnd : Nat := 432

abbrev sgxFlagsDebug : Nat := 2

def checkReportCorrect (address : Pointer) (quote : Bytes) (mrenclave : FixedBytes 32)
    (reportData : ReportData) : CheckerCode Int32 := do
  let past ← issue (.readPast (address + quote.length) (reportEnd - quote.length))
  let quote3 := quote ++ past.val
  if mrenclave.val ≠ mrEnclave quote3 then
    return einval
  if reportData.val ≠ quotedReportData quote3 then
    return einval
  if attributesFlags quote3 &&& sgxFlagsDebug ≠ 0 then
    return einval
  return 0

/-- One round of the loop in `main`. -/
def checkQuote : CheckerCode Unit := do
  let mrenclave ← freadAll 32
  let reportData ← freadAll 64
  let quoteLength ← freadAll 4
  let some address ← issue (.malloc (leValue quoteLength.val)) | exit
  let quote ← freadAll (leValue quoteLength.val)
  if (← verifyQuoteAuthenticity quote.val) ≠ 0 then
    exit
  if (← checkReportCorrect address quote.val mrenclave reportData) ≠ 0 then
    exit
  issue (.free address)
  issue (.fprintf quoteOk)

def quoteChecker : Component Checker Unit := ⟨Unit, Unit, fun _ => checkQuote⟩

end QuoteChecker

end Auntie.Source.Host
