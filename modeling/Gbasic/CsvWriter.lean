import Gbasic.CsvReader
import Gbasic.MoneyText
import Gbasic.ValueEqual
/-!
# CsvWriter — `csv.line` and `csv.write`

The options are a closed set, and each is checked as it comes.  A field is quoted where it must be, and a record of one
empty field always.  The text is made whole before a file is touched.
-/
namespace Gbasic
namespace Csv

open Eval (Raise MoneyValue)
open Same (Value findField)

def CSV_ERROR_CODE : Nat := 5101

def csvRaise {α : Type} (size : Nat) (message : Bytes) : Except Raise α :=
  .error ⟨message.take (size - 1), CSV_ERROR_CODE, "csv"⟩

/-! ## Options -/

def csvOptionByte (verb option : String) (v : Value) (allowEmpty : Bool) : Except Raise Int :=
  match v with
  | .string s =>
    if s.length = 0 ∧ allowEmpty then .ok (-1)
    else if s.length ≠ 1 then
      csvRaise 256 (text (verb ++ ": " ++ option ++ " must be one character" ++
        if allowEmpty then ", or \"\" for none" else ""))
    else
      let c := s.headD 0
      if c = cr ∨ c = lf then csvRaise 256 (text (verb ++ ": " ++ option ++ " cannot be a line break"))
      else .ok c.val
  | _ => csvRaise 256 (text (verb ++ ": " ++ option ++ " must be text of one character"))

structure CsvOptions where
  delimiter : Int
  quote : Int
  header : Bool
  deliver : Bool
  names : Option (List Bytes)
  lineEnd : Bytes

def CsvOptions.start : CsvOptions := ⟨44, 34, true, false, none, [lf]⟩

def csvNames (verb : String) : List Bytes → List Value → Except Raise (List Bytes)
  | seen, [] => .ok seen
  | seen, v :: vs =>
    match v with
    | .string s =>
      if s.length = 0 then
        csvRaise 320 (text (verb ++ ": name " ++ toString (seen.length + 1) ++
          " is not a field name; a name is non-empty text"))
      else
        match seen.findIdx? (fun n => decide (n = s)) with
        | some j =>
          csvRaise 320 (text (verb ++ ": names " ++ toString (j + 1) ++ " and " ++ toString (seen.length + 1) ++
            " are both '") ++ (cString s).take 100 ++ text "'")
        | none => csvNames verb (seen ++ [s]) vs
    | _ =>
      csvRaise 320 (text (verb ++ ": name " ++ toString (seen.length + 1) ++
        " is not a field name; a name is non-empty text"))

def csvOption (verb : String) (writing : Bool) (o : CsvOptions × Bool) (name : Bytes) (v : Value) :
    Except Raise (CsvOptions × Bool) :=
  if name = text "delimiter" then do
    let c ← csvOptionByte verb "delimiter" v false
    return ({ o.1 with delimiter := c }, o.2)
  else if name = text "quote" then do
    let c ← csvOptionByte verb "quote" v true
    return ({ o.1 with quote := c }, o.2)
  else if name = text "names" then
    match v with
    | .array _ (item :: items) => do
      let names ← csvNames verb [] (item :: items)
      return ({ o.1 with names := some names }, o.2)
    | _ => csvRaise 320 (text (verb ++ ": names must be an array of field names"))
  else if writing = false ∧ name = text "header" then
    match v with
    | .bool b => .ok ({ o.1 with header := b }, true)
    | _ => csvRaise 320 (text (verb ++ ": header must be true or false"))
  else if writing = false ∧ name = text "problems" then
    match v with
    | .string s =>
      if cString s = text "raise" then .ok ({ o.1 with deliver := false }, o.2)
      else if cString s = text "deliver" then .ok ({ o.1 with deliver := true }, o.2)
      else csvRaise 320 (text (verb ++ ": problems must be \"raise\" or \"deliver\""))
    | _ => csvRaise 320 (text (verb ++ ": problems must be \"raise\" or \"deliver\""))
  else if writing = true ∧ name = text "line_end" then
    match v with
    | .string s =>
      if cString s = [lf] ∨ cString s = [cr, lf] then .ok ({ o.1 with lineEnd := s }, o.2)
      else csvRaise 320 (text (verb ++ ": line_end must be \"\\n\" or \"\\r\\n\""))
    | _ => csvRaise 320 (text (verb ++ ": line_end must be \"\\n\" or \"\\r\\n\""))
  else
    csvRaise 320 (text (verb ++ ": '") ++ name.take 60 ++ text ("' is not an option; the options are " ++
      if writing then "delimiter, quote, names and line_end" else "delimiter, quote, header, names and problems"))

def csvOptionsFrom (verb : String) (writing : Bool) : CsvOptions × Bool → List (Bytes × Value) →
    Except Raise (CsvOptions × Bool)
  | o, [] => .ok o
  | o, (name, v) :: fields => do csvOptionsFrom verb writing (← csvOption verb writing o name v) fields

def csvReadOptions (verb : String) (options : Option Value) (writing : Bool) : Except Raise CsvOptions :=
  match options with
  | none => .ok .start
  | some (.record fields) => do
    let (o, headerGiven) ← csvOptionsFrom verb writing (.start, false) fields
    if 0 ≤ o.quote ∧ o.quote = o.delimiter then
      csvRaise 320 (text (verb ++ ": the delimiter and the quote are the same character"))
    else if writing = false ∧ o.names.isSome then
      if headerGiven ∧ o.header then
        csvRaise 320 (text (verb ++
          ": names are for a file with no header line, so they cannot go with header: true"))
      else return { o with header := false }
    else return o
  | some _ => csvRaise 320 (text (verb ++ ": options must be a record, such as \x7b delimiter: \"\\t\" \x7d"))

/-! ## Writing -/

/-- What is used of values: `string` of one. -/
structure Env where
  string : Value → Except Raise Bytes

def charOf (n : Int) : Byte := byte n.toNat

def fieldText (env : Env) : Value → Except Raise Bytes
  | .null => .ok []
  | .unknown => .ok []
  | .string s => .ok s
  | .money m => .ok ((Money.moneyRenderExact m 64).getD [])
  | v => env.string v

def csvPutField (env : Env) (verb : String) (v : Value) (o : CsvOptions) (location : Bytes) : Except Raise Bytes :=
  match v with
  | .null => .ok []
  | .unknown => .ok []
  | .array _ _ => csvRaise 256 (text (verb ++ ": ") ++ location ++ text " is an array, which is not one field")
  | .record _ => csvRaise 256 (text (verb ++ ": ") ++ location ++ text " is a record, which is not one field")
  | v => do
    let t ← fieldText env v
    if gbCsvNeedsQuote t (charOf o.delimiter) o.quote then
      if o.quote < 0 then
        csvRaise 256 (text (verb ++ ": ") ++ location ++
          text " holds the delimiter or a line break, and with quote: \"\" it cannot be written")
      else
        let q := charOf o.quote
        return q :: t.flatMap (fun c => if c = q then [c, q] else [c]) ++ [q]
    else return t

def csvPutFields (env : Env) (verb : String) (o : CsvOptions) : List (Except Raise Value × Bytes) → Except Raise Bytes
  | [] => .ok []
  | [(v, location)] => do csvPutField env verb (← v) o location
  | (v, location) :: fields => do
    let t ← csvPutField env verb (← v) o location
    let more ← csvPutFields env verb o fields
    return t ++ charOf o.delimiter :: more

def fieldAt (rowno i : Nat) : Bytes :=
  text (if rowno ≠ 0 then "row " ++ toString rowno ++ " field " ++ toString (i + 1) else "field " ++ toString (i + 1))

def namedField (verb : String) (fields : List (Bytes × Value)) (rowno : Nat) (name : Bytes) : Except Raise Value :=
  match findField (cString name) fields with
  | some v => .ok v
  | none =>
    csvRaise 300 (
      if rowno ≠ 0 then
        text (verb ++ ": row " ++ toString rowno ++ " has no field '") ++ (cString name).take 80 ++
          text "', which the header names"
      else
        text (verb ++ ": the record has no field '") ++ (cString name).take 80 ++ text "', which the names give")

def namedAt (rowno : Nat) (name : Bytes) : Bytes :=
  (if rowno ≠ 0 then text ("row " ++ toString rowno ++ " field '") else text "field '") ++ (cString name).take 40 ++
    text "'"

def csvPutRecordFields (env : Env) (verb : String) (row : Value) (names : Option (List Bytes)) (o : CsvOptions)
    (rowno : Nat) : Except Raise Bytes :=
  match row with
  | .array _ items => csvPutFields env verb o (items.zipIdx.map (fun x => (.ok x.1, fieldAt rowno x.2)))
  | .record fields =>
    match names with
    | some names =>
      if fields.length ≠ names.length then
        csvRaise 300 (text (verb ++ ": " ++ (if rowno ≠ 0 then "row " ++ toString rowno else "the record") ++ " has " ++
          toString fields.length ++ " field" ++ (if fields.length = 1 then "" else "s") ++ " where the " ++
          (if rowno ≠ 0 then "header has" else "names give") ++ " " ++ toString names.length ++
          "; a column that shifts is the defect this refuses"))
      else csvPutFields env verb o (names.map (fun name => (namedField verb fields rowno name, namedAt rowno name)))
    | none => csvPutFields env verb o (fields.map (fun f => (.ok f.2, text "field '" ++ f.1.take 40 ++ text "'")))
  | _ =>
    csvRaise 200 (text (
      if rowno ≠ 0 then verb ++ ": row " ++ toString rowno ++ " is not an array or a record"
      else verb ++ " expects an array or a record of fields"))

def rowCount : Value → Nat
  | .array _ items => items.length
  | .record fields => fields.length
  | _ => 0

def csvPutRecord (env : Env) (verb : String) (row : Value) (names : Option (List Bytes)) (o : CsvOptions)
    (rowno : Nat) :
    Except Raise Bytes := do
  let written ← csvPutRecordFields env verb row names o rowno
  if written.length = 0 ∧ rowCount row = 1 then
    if o.quote < 0 then
      csvRaise 200 (text (verb ++ ": a record of one empty field cannot be written with quote: \"\"; " ++
        "it would be an empty line, which a reader skips"))
    else return [charOf o.quote, charOf o.quote]
  else return written

/-- `csv.line`. -/
def csvLine (env : Env) (row : Value) (options : Option Value) : Except Raise Bytes := do
  let o ← csvReadOptions "csv.line" options true
  let written ← csvPutRecord env "csv.line" row o.names o 0
  return written ++ o.lineEnd

def csvPutRows (env : Env) (names : Option (List Bytes)) (o : CsvOptions) : Nat → List Value → Except Raise Bytes
  | _, [] => .ok []
  | i, row :: rows =>
    match row, names with
    | .record _, none =>
      csvRaise 256 (text "csv.write: a record row needs a header; the first row is an array, so give names:")
    | _, _ => do
      let written ← csvPutRecord env "csv.write" row names o (i + 1)
      let more ← csvPutRows env names o (i + 1) rows
      return written ++ o.lineEnd ++ more

def headerNames (o : CsvOptions) (rows : List Value) : Option (List Bytes) :=
  match o.names, rows with
  | some names, _ => some names
  | none, .record fields :: _ => some (fields.map Prod.fst)
  | none, _ => none

def csvWrite (env : Env) (rows : Value) (options : Option Value) : Except Raise Bytes := do
  let o ← csvReadOptions "csv.write" options true
  match rows with
  | .array _ rows =>
    match headerNames o rows with
    | some names =>
      let header ← csvPutRecord env "csv.write" (.array 0 (names.map Value.string)) none o 0
      let body ← csvPutRows env (some names) o 0 rows
      return header ++ o.lineEnd ++ body
    | none => csvPutRows env none o 0 rows
  | _ => csvRaise 256 (text "csv.write expects the rows as an array of records or arrays")

end Csv
end Gbasic
