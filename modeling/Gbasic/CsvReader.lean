import Gbasic.Bytes
import Gbasic.Inflow
/-!
# CsvReader — delimited text, byte by byte

One machine over a byte stream, for a file and for text alike.  A loop is given turns, and a run that is out of them has
stopped nowhere (`Stop.turns`).  The delimiter is a `char`, which is signed, and the byte it is compared with is not.
-/
namespace Gbasic
namespace Csv

abbrev Bytes := List Byte

def GB_CSV_CHUNK : Nat := 65536

def GB_CSV_MAX_RECORD : Nat := 64 * 1024 * 1024

def cr : Byte := byte 13

def lf : Byte := byte 10

def schar (b : Byte) : Int := if b.val < 128 then b.val else b.val - 256

/-- A byte that was looked for as an `int`, and the end as a negative one. -/
def cint : Option Byte → Int
  | none => -1
  | some b => b.val

def isBreak (c : Option Byte) : Bool := decide (c = some cr ∨ c = some lf)

inductive Problem where
  | ok | textAfterQuote
  deriving DecidableEq

inductive Failure where
  | tooLong (line : Nat)
  | readFailed
  | unclosed (opened : Nat)
  deriving DecidableEq

def Failure.message (strerror : Bytes) : Failure → Bytes
  | .tooLong line =>
    text "the record starting on line " ++ text (toString line) ++ text " is over " ++
      text (toString (GB_CSV_MAX_RECORD / (1024 * 1024))) ++ text " MiB; a quote that never closes?"
  | .readFailed => text "could not read the file (" ++ strerror ++ text ")"
  | .unclosed opened => text "the quote opened on line " ++ text (toString opened) ++ text " is never closed"

inductive Stop where
  | turns
  | failed (f : Failure)
  deriving DecidableEq

structure Reader where
  src : Inflow Byte
  delimiter : Byte
  quote : Int
  consumed : Nat
  line : Nat
  started : Bool
  fieldBuf : Bytes
  fieldCap : Nat
  starts : List Nat
  recLine : Nat
  recOffset : Nat
  problem : Problem

def readerNew (src : Inflow Byte) (delimiter : Byte) (quote : Int) : Reader :=
  ⟨src, delimiter, quote, 0, 1, false, [], 0, [], 0, 0, .ok⟩

def openText (s : Bytes) : Byte → Int → Reader := readerNew (.ofList s)

def openFile (reads : List Bytes) (fails : Bool) : Byte → Int → Reader := readerNew (.ofReads reads fails)

namespace Reader

def peek (r : Reader) : Option Byte × Reader := (r.src.peek.1, { r with src := r.src.peek.2 })

def take (r : Reader) : Reader := { r with src := r.src.take, consumed := r.consumed + 1 }

def put (r : Reader) (c : Byte) : Except Stop Reader :=
  if r.fieldBuf.length = r.fieldCap then
    if GB_CSV_MAX_RECORD ≤ r.fieldCap then .error (.failed (.tooLong r.recLine))
    else .ok { r with fieldBuf := r.fieldBuf ++ [c], fieldCap := if r.fieldCap = 0 then 256 else r.fieldCap * 2 }
  else .ok { r with fieldBuf := r.fieldBuf ++ [c] }

def beginField (r : Reader) : Reader := { r with starts := r.starts ++ [r.fieldBuf.length] }

def newLine (r : Reader) : Reader := { r with line := r.line + 1 }

def takeBreak (r : Reader) (c : Option Byte) : Reader :=
  let r := r.take
  let r := if c = some cr then if r.peek.1 = some lf then r.peek.2.take else r.peek.2 else r
  r.newLine

def start (r : Reader) : Reader :=
  if r.started then r
  else
    let r := { r with started := true }
    let c := r.peek.1
    let r := r.peek.2
    if c = some (byte 0xEF) ∧ 3 ≤ r.src.held.length - r.src.pos ∧ r.src.held[r.src.pos + 1]? = some (byte 0xBB) ∧
        r.src.held[r.src.pos + 2]? = some (byte 0xBF) then r.take.take.take
    else r

def skipBlank : Nat → Reader → Except Stop (Option Byte × Reader)
  | 0, _ => .error .turns
  | n + 1, r => if isBreak r.peek.1 then skipBlank n (r.peek.2.takeBreak r.peek.1) else .ok r.peek

def quoted (opened : Nat) : Nat → Reader → Except Stop Reader
  | 0, _ => .error .turns
  | n + 1, r =>
    match r.peek with
    | (none, r) => .error (.failed (if r.src.failed then .readFailed else .unclosed opened))
    | (some c, r) =>
      let r := r.take
      if cint (some c) = r.quote then
        if cint r.peek.1 = r.quote then do
          quoted opened n (← r.peek.2.take.put c)
        else .ok r.peek.2
      else if c = lf then do
        quoted opened n (← r.newLine.put c)
      else if c = cr then
        if r.peek.1 = some lf then do
          let r ← r.peek.2.put cr
          quoted opened n (← r.take.newLine.put lf)
        else do
          quoted opened n (← r.peek.2.newLine.put c)
      else do
        quoted opened n (← r.put c)

/-- Up to the delimiter, a line break or the end. -/
def plain : Nat → Reader → Except Stop (Option Byte × Reader)
  | 0, _ => .error .turns
  | n + 1, r =>
    match r.peek with
    | (none, r) => .ok (none, r)
    | (some c, r) =>
      if cint (some c) = schar r.delimiter ∨ isBreak (some c) then .ok (some c, r)
      else do
        plain n (← r.take.put c)

def afterQuote (r : Reader) : Reader :=
  let c := r.peek.1
  let r := r.peek.2
  if c ≠ none ∧ cint c ≠ schar r.delimiter ∧ isBreak c = false ∧ r.problem = .ok then
    { r with problem := .textAfterQuote }
  else r

def field (n : Nat) (r : Reader) : Except Stop (Option Byte × Reader) := do
  let r := r.beginField
  let c := r.peek.1
  let r := r.peek.2
  if 0 ≤ r.quote ∧ cint c = r.quote then
    let r ← quoted r.line n r.take
    plain n r.afterQuote
  else plain n r

def fields : Nat → Reader → Except Stop Reader
  | 0, _ => .error .turns
  | n + 1, r => do
    let (c, r) ← r.field n
    if r.src.failed then .error (.failed .readFailed)
    else if cint c = schar r.delimiter then fields n r.take
    else return if isBreak c then r.takeBreak c else r

def beginRecord (r : Reader) : Reader :=
  { r with fieldBuf := [], starts := [], problem := .ok, recLine := r.line, recOffset := r.consumed }

/-- `gb_csv_next`: whether there is a record, which is then in hand. -/
def gbCsvNext (n : Nat) (r : Reader) : Except Stop (Bool × Reader) := do
  let (c, r) ← skipBlank n r.start
  if r.src.failed then .error (.failed .readFailed)
  else if c = none then return (false, r)
  else
    return (true, ← fields n r.beginRecord)

def gbCsvField (r : Reader) (index : Nat) : Bytes :=
  let start := r.starts.getD index 0
  let finish := if index + 1 < r.starts.length then r.starts.getD (index + 1) 0 else r.fieldBuf.length
  (r.fieldBuf.drop start).take (finish - start)

end Reader

def gbCsvNeedsQuote (field : Bytes) (delimiter : Byte) (quote : Int) : Bool :=
  field.any (fun c => decide (schar c = schar delimiter ∨ c = cr ∨ c = lf ∨ 0 ≤ quote ∧ (c.val : Int) = quote))

end Csv
end Gbasic
