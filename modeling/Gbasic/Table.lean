import Gbasic.V3
import Gbasic.Engine
/-!
# Table — columns, keys, rows and index entries

A table's record names its columns, its key and its indexes; a row is its values in the encoding they came in, an index
entry its columns' key components.  A refusal carries its message and the names it is about, each as long as its buffer
holds.  A column's kind is a type here, so a number that names no kind is not among the refusals.
-/
namespace Gbasic
namespace Gsql

open Lsm (Status)
open Engine (Trees Bytes)
open Key (SER_NULL SER_UNKNOWN SER_BOOL SER_NUMBER SER_STRING SER_ARRAY SER_RECORD SER_DATETIME SER_DURATION
  SER_MONEY SER_FILE SER_DIR SER_FUNCTION SER_REGEX KEY_ABSENT KeyFlags keyAppend keySkip)

def ROW_FORMAT : Nat := 1
def MAX_NAME : Nat := 255
def MAX_ITEMS : Nat := 4096

/-! ## Errors -/

/-- `GsqlCode`, and of the codes that continue it those the statements answer. -/
inductive Code where
  | ok | notFound | exists | duplicate | notNull | type | schema | corrupt | storage | misuse
  | foreignKey | serial | syntaxError | unsupported | expression | check
  deriving DecidableEq, Repr

/-- `GsqlError`: `dup` is `-1` for the primary key and `1 + i` for index `i`. -/
structure Error where
  code : Code
  message : Bytes
  dup : Int
  table : Bytes
  column : Bytes
  constraint : Bytes
  deriving DecidableEq, Repr

def number (n : Nat) : Bytes := text (toString n)

def fail (code : Code) (message : Bytes) : Error := ⟨code, message.take 511, 0, [], [], []⟩

def about (e : Error) (table column constraint : Option Bytes) : Error :=
  let named (new : Option Bytes) (old : Bytes) : Bytes := match new with
    | some n => n.take 127
    | none => old
  { e with table := named table e.table, column := named column e.column,
           constraint := named constraint e.constraint }

def statusName : Status → String
  | .ok => "OK"
  | .notFound => "NOT_FOUND"
  | .exists => "EXISTS"
  | .order => "ORDER"
  | .busy => "BUSY"
  | .tooLarge => "TOO_LARGE"
  | .invalidated => "INVALIDATED"
  | .corrupt => "CORRUPT"
  | .io => "IO"
  | .full => "FULL"
  | .failed => "FAILED"
  | .format => "FORMAT"
  | .readOnly => "READ_ONLY"
  | .misuse => "MISUSE"
  | .fenced => "FENCED"

def storage (st : Status) (what : String) : Error :=
  fail .storage (text what ++ text ": the engine answered " ++ text (statusName st))

/-! ## The schema -/

inductive ColKind where
  | number | integer | string | boolean | money | date | time | datetime | record
  deriving DecidableEq, Repr, Inhabited

def kindName : ColKind → String
  | .number => "number"
  | .integer => "integer"
  | .string => "string"
  | .boolean => "boolean"
  | .money => "money"
  | .date => "date"
  | .time => "time"
  | .datetime => "datetime"
  | .record => "record"

inductive Gen where
  | none | serial | random
  deriving DecidableEq, Repr, Inhabited

/-- `GsqlColumn`: a money column's currency is empty where it takes any, and a column without a default has none. -/
structure Column where
  name : Bytes
  kind : ColKind
  currency : Bytes
  notNull : Bool
  dflt : Option Bytes
  gen : Gen
  scope : List Bytes
  length : Nat
  alphabet : Option Bytes
  deriving DecidableEq, Repr, Inhabited

/-- `GsqlIndex`: its columns by their positions, each with whether it descends. -/
structure Index where
  name : Bytes
  id : Nat
  cols : List (Nat × Bool)
  unique : Bool
  deriving DecidableEq, Repr

/-- `GsqlTable`: no key columns is a hidden row id. -/
structure Table where
  name : Bytes
  id : Nat
  version : Nat
  cols : List Column
  key : List Nat
  idx : List Index
  deriving DecidableEq, Repr

def treeName (letter : Char) (id : Nat) : Bytes := byte 0 :: byte letter.toNat :: bePut 8 id

namespace Table

def rowsTree (tb : Table) : Bytes := treeName 'r' tb.id

def serialTree (tb : Table) : Bytes := treeName 'q' tb.id

def ncols (tb : Table) : Nat := tb.cols.length

def col (tb : Table) (i : Nat) : Column := tb.cols.getD i default

def hasSerial (tb : Table) : Bool := tb.cols.any (fun c => c.gen = .serial)

end Table

def Index.tree (x : Index) : Bytes := treeName 'i' x.id

/-! ## The shared trees -/

def CATALOG : Bytes := byte 0 :: text "catalog"

def META : Bytes := byte 0 :: text "meta"

def VIEWS : Bytes := byte 0 :: text "view"

def NEXT : Bytes := text "next"

def metaGet (t : Trees) (key : Bytes) : Except Error Nat :=
  match Engine.get t META key with
  | .error .notFound => .ok 1
  | .error st => .error (storage st "reading the meta tree")
  | .ok got =>
    if got.length ≠ 8 then .error (fail .corrupt (text "a meta entry is " ++ number got.length ++ text " bytes, not 8"))
    else .ok (leNat got)

def metaPut (t : Trees) (key : Bytes) (v : Nat) : Except Error Unit × Trees :=
  match Engine.put t META key (lePut 8 v) .none with
  | (.ok, t) => (.ok (), t)
  | (st, t) => (.error (storage st "writing the meta tree"), t)

def metaTableKey (tb : Table) : Bytes := bePut 8 tb.id

/-! ## The type rules -/

def tagName (tag : Nat) : String :=
  if tag = SER_NULL then "nothing"
  else if tag = SER_UNKNOWN then "unknown"
  else if tag = SER_BOOL then "a boolean"
  else if tag = SER_NUMBER then "a number"
  else if tag = SER_STRING then "a string"
  else if tag = SER_ARRAY then "an array"
  else if tag = SER_RECORD then "a record"
  else if tag = SER_DATETIME then "a date-time"
  else if tag = SER_DURATION then "a duration"
  else if tag = SER_MONEY then "money"
  else if tag = SER_FILE then "a file"
  else if tag = SER_DIR then "a directory"
  else if tag = SER_FUNCTION then "a function"
  else if tag = SER_REGEX then "a regex"
  else "a value"

def kindTakes (kind : ColKind) (w : V3.Walk) : Bool :=
  match kind with
  | .number => w.tag = SER_NUMBER
  | .integer => w.tag = SER_NUMBER
  | .string => w.tag = SER_STRING
  | .boolean => w.tag = SER_BOOL
  | .money => w.tag = SER_MONEY
  | .date => w.tag = SER_DATETIME && w.timeOnly = 0 && w.precision = 3
  | .time => w.tag = SER_DATETIME && w.timeOnly ≠ 0
  | .datetime => w.tag = SER_DATETIME && w.timeOnly = 0 && 4 ≤ w.precision
  | .record => w.tag = SER_RECORD

def valueFitsRule (table : Bytes) (c : Column) (v : Bytes) : Except Error Unit :=
  let here := table ++ text "." ++ c.name
  match V3.walkWhole v with
  | none => .error (fail .type (here ++ text ": the value is not one well-formed value"))
  | some w =>
    if w.tag = SER_NULL ∨ w.tag = SER_UNKNOWN then
      if c.notNull then .error (fail .notNull (here ++ text " is NOT NULL, and the value is unknown")) else .ok ()
    else if w.badTag ≠ 0 then
      .error (fail .type (here ++ text ": " ++ text (tagName w.badTag) ++ text " cannot be stored" ++
        (if w.badTag = w.tag then [] else text ", and the record holds one")))
    else if c.kind = .integer ∧ w.tag = SER_NUMBER ∧ w.exact = 0 then
      .error (fail .type (here ++ text (" is integer, and the number is not an exact integer (it is refused rather " ++
        "than converted)")))
    else if c.kind = .money ∧ w.tag = SER_MONEY ∧ c.currency ≠ [] ∧ cString w.currency ≠ c.currency then
      .error (fail .type (here ++ text " is money(" ++ c.currency ++ text "), and the money is in " ++
        (if cString w.currency = [] then text "a currency with no code" else cString w.currency)))
    else if kindTakes c.kind w then .ok ()
    else
      let is := if w.tag = SER_DATETIME then
          if w.timeOnly ≠ 0 then "a time"
          else if w.precision = 3 then "a date"
          else if w.precision < 3 then "a year or month"
          else "a date and time"
        else if w.tag = SER_ARRAY then "an array (an array is stored inside a record)"
        else tagName w.tag
      .error (fail .type (here ++ text " is " ++ text (kindName c.kind) ++ text ", and the value is " ++ text is))

def valueFits (table : Bytes) (c : Column) (v : Bytes) : Except Error Unit :=
  match valueFitsRule table c v with
  | .ok () => .ok ()
  | .error e => .error (about e (some table) (some c.name) none)

/-! ## Keys, rows and index entries -/

def UNKNOWN_VALUE : Bytes := [byte SER_UNKNOWN]

def keyFlags (c : Column) (desc : Bool) : KeyFlags := ⟨desc, decide (c.kind = .money ∧ c.currency ≠ [])⟩

def keyComponent (k : Bytes) (c : Column) (v : Bytes) (desc : Bool) : Option Bytes :=
  match keyAppend k v (keyFlags c desc) with
  | (.ok, k, _) => some k
  | _ => none

def isAbsent (v : Bytes) : Bool := v = [byte SER_UNKNOWN] || v = [byte SER_NULL]

/-- A hidden row id's key: the id as an exact number. -/
def hiddenKey (rowid : Nat) : Bytes :=
  (keyAppend [] (byte SER_NUMBER :: byte 1 :: lePut 8 rowid) ⟨false, false⟩).2.1

abbrev Vals := List Bytes

def primaryKeyFrom (tb : Table) (vals : Vals) : List Nat → Bytes → Except Error Bytes
  | [], k => .ok k
  | i :: key, k =>
    match keyComponent k (tb.col i) (vals.getD i []) false with
    | some k => primaryKeyFrom tb vals key k
    | none =>
      .error (about (fail .type (tb.name ++ text "." ++ (tb.col i).name ++
        text ": the value has no order, so it cannot be a key")) (some tb.name) (some (tb.col i).name) none)

def primaryKey (tb : Table) (vals : Vals) : Except Error Bytes := primaryKeyFrom tb vals tb.key []

structure Entry where
  key : Bytes
  uniqueForm : Bool
  deriving DecidableEq, Repr

def indexColumns (tb : Table) (vals : Vals) : List (Nat × Bool) → Bytes → Bool → Option (Bytes × Bool)
  | [], k, absent => some (k, absent)
  | (i, desc) :: cols, k, absent =>
    match keyComponent k (tb.col i) (vals.getD i []) desc with
    | none => none
    | some k => indexColumns tb vals cols k (absent || isAbsent (vals.getD i []))

def indexEntry (tb : Table) (x : Index) (vals : Vals) (rowkey : Bytes) : Option Entry :=
  match indexColumns tb vals x.cols [] false with
  | none => none
  | some (k, absent) =>
    -- a unique index with no absent column is keyed by its columns alone
    if x.unique && !absent then some ⟨k, true⟩ else some ⟨k ++ rowkey, false⟩

def indexRest (tb : Table) (x : Index) : List (Nat × Bool) → Bytes → Bool → Except Error (Bytes × Bool)
  | [], l, absent => .ok (l, absent)
  | (i, desc) :: cols, l, absent =>
    match keySkip l (keyFlags (tb.col i) desc) with
    | (.ok, n) =>
      let first := if desc then notByte (l.headD 0) else l.headD 0
      indexRest tb x cols (l.drop n) (absent || decide (first.val = KEY_ABSENT))
    | _ => .error (fail .corrupt (text "an entry of index " ++ x.name ++ text " does not parse"))

def indexRowkey (tb : Table) (x : Index) (key value : Bytes) : Except Error Bytes :=
  match indexRest tb x x.cols key false with
  | .error e => .error e
  | .ok (rest, absent) =>
    if x.unique && !absent then
      if rest ≠ [] then
        .error (fail .corrupt (text "an entry of unique index " ++ x.name ++ text " has bytes after its columns"))
      else .ok value
    else if value ≠ [] then
      .error (fail .corrupt (text "an entry of index " ++ x.name ++ text " carries a value"))
    else .ok rest

/-- A value as a row holds it: a bound `nothing` is stored as unknown. -/
def stored (v : Bytes) : Bytes := if v = [byte SER_NULL] then UNKNOWN_VALUE else v

def rowEncode (tb : Table) (vals : Vals) : Bytes := byte ROW_FORMAT :: (uleb tb.ncols ++ vals.flatMap stored)

def Column.missing (c : Column) : Bytes := c.dflt.getD UNKNOWN_VALUE

def rowDecodeFrom (tb : Table) (count : Nat) : Nat → List Column → Bytes → Except Error (Vals × Bytes)
  | _, [], l => .ok ([], l)
  | i, c :: cols, l =>
    if i < count then
      match V3.walkOne l with
      | none =>
        .error (fail .corrupt (text "a row of " ++ tb.name ++ text ": column " ++ number i ++ text " does not parse"))
      | some (_, rest) =>
        match rowDecodeFrom tb count (i + 1) cols rest with
        | .error e => .error e
        | .ok (vals, r) => .ok (l.take (l.length - rest.length) :: vals, r)
    else
      match rowDecodeFrom tb count (i + 1) cols l with
      | .error e => .error e
      | .ok (vals, r) => .ok (c.missing :: vals, r)

def rowDecode (tb : Table) (row : Bytes) : Except Error Vals :=
  let format := ((leGet 1 row).map (·.1)).getD 0
  match leGet 1 row with
  | none => .error (fail .corrupt (text "a row of " ++ tb.name ++ text " has format " ++ number format))
  | some (_, l) =>
    match ulebGet 10 0 0 l with
    | none => .error (fail .corrupt (text "a row of " ++ tb.name ++ text " has format " ++ number format))
    | some (count, l) =>
      if format ≠ ROW_FORMAT then
        .error (fail .corrupt (text "a row of " ++ tb.name ++ text " has format " ++ number format))
      else if tb.ncols < count then
        .error (fail .corrupt (text "a row of " ++ tb.name ++ text " has " ++ number count ++
          text " columns, more than its " ++ number tb.ncols))
      else
        match rowDecodeFrom tb count 0 tb.cols l with
        | .error e => .error e
        | .ok (vals, []) => .ok vals
        | .ok (_, r) =>
          .error (fail .corrupt (text "a row of " ++ tb.name ++ text " has " ++ number r.length ++
            text " bytes after its last column"))

def Column.chosen (c : Column) (given : Option Bytes) (old : Option Vals) : Bytes :=
  match given, old with
  | some v, _ => v
  | none, some old => old.headD []
  | none, none => c.missing

def resolveFrom (tb : Table) : List Column → List (Option Bytes) → Option Vals → Except Error Vals
  | [], _, _ => .ok []
  | c :: cols, vals, old =>
    match valueFits tb.name c (c.chosen (vals.headD none) old) with
    | .error e => .error e
    | .ok () =>
      match resolveFrom tb cols vals.tail (old.map List.tail) with
      | .error e => .error e
      | .ok vs => .ok (c.chosen (vals.headD none) old :: vs)

def resolve (tb : Table) (vals : List (Option Bytes)) (old : Option Vals) : Except Error Vals :=
  resolveFrom tb tb.cols vals old

def entriesFrom (tb : Table) (vals : Vals) (rowkey : Bytes) : List Index → Except Error (List (Index × Entry))
  | [] => .ok []
  | x :: idx =>
    match indexEntry tb x vals rowkey with
    | none => .error (fail .corrupt (text "index " ++ x.name ++ text " holds a column with no order"))
    | some e =>
      match entriesFrom tb vals rowkey idx with
      | .error e => .error e
      | .ok es => .ok ((x, e) :: es)

def entriesBuild (tb : Table) (vals : Vals) (rowkey : Bytes) : Except Error (List (Index × Entry)) :=
  entriesFrom tb vals rowkey tb.idx

end Gsql
end Gbasic
