import Gbasic.SqlExpr
/-!
# SqlWrite — INSERT, UPDATE and DELETE

An UPDATE or DELETE collects every row it is to change and the values it is to give them, checks the changes one by one
against the foreign keys, and then writes.  An INSERT evaluates, checks and writes its rows one at a time; the rows of
its query are all read first.  Of a query, a WHERE or a SET only what it answers on the database it is evaluated on is
kept, and of a walk the keys it meets there.
-/
namespace Gbasic
namespace Gsql

open Engine (Trees Bytes)
open Key (SER_NULL SER_UNKNOWN SER_NUMBER SER_MONEY keyAppend)

def GEN_DRAWS : Nat := 32
def INT64_MAX : Nat := 2 ^ 63 - 1

/-- What the statements ask of the host and of a table's CHECKs and scopes: a value converted to its column, the CHECKs
that are bound, and the scope of a serial, each of a row alone. -/
structure Host where
  convert : Table → Nat → HostValue → Except Error HostValue
  checks : Table → List (Vals → Except Error Unit)
  scope : Table → Nat → Vals → Except Error Bytes

/-! ## Foreign keys -/

/-- `FkRec`: a foreign key names one column or more. -/
structure FkRec where
  name : Bytes
  table : Bytes
  ref : Bytes
  cols : List Bytes
  refCols : List Bytes
  enforced : Bool
  bound : Bool
  some : cols ≠ []

structure Binding where
  parent : Table
  cpos : List Nat
  ppos : List Nat

def Table.find (tb : Table) (name : Bytes) : Option Nat := tb.cols.findIdx? (fun c => c.name = name)

/-- A foreign key bound to what is there now: its child's columns and its parent's primary key, of the same kinds. -/
def fkBind (db : Db) (k : FkRec) (child : Table) : Option Binding :=
  match k.cols.mapM child.find with
  | none => none
  | some cpos =>
    match tableOpen db k.ref with
    | .error _ => none
    | .ok parent =>
      if parent.key.map (fun i => (parent.col i).name) ≠ k.refCols ∨ parent.key.length ≠ k.cols.length then none
      else if (cpos.zip parent.key).all (fun p => (child.col p.1).kind = (parent.col p.2).kind ∧
          (child.col p.1).currency = (parent.col p.2).currency) then some ⟨parent, cpos, parent.key⟩
      else none

def fkBound (db : Db) (k : FkRec) (child : Table) : Option Binding :=
  if 64 < k.cols.length then none else fkBind db k child

def isAbsentBytes (v : Bytes) : Bool := v = [] || (v.headD 0).val = SER_UNKNOWN || (v.headD 0).val = SER_NULL

def rowKeyFrom (tb : Table) : List Nat → List (Option Bytes) → Bytes → Except Error Bytes
  | [], _, k => .ok k
  | i :: key, vals, k =>
    match (vals.headD none).bind (fun v => keyComponent k (tb.col i) v false) with
    | some k => rowKeyFrom tb key vals.tail k
    | none =>
      .error (about (fail .type (tb.name ++ text "." ++ (tb.col i).name ++
        text ": the value has no order, so it cannot be a key")) (some tb.name) (some (tb.col i).name) none)

/-- `gsql_row_key`: the key of one value for each key column, in key order. -/
def rowKey (tb : Table) (vals : List (Option Bytes)) : Except Error Bytes :=
  if tb.key = [] then .error (fail .misuse (tb.name ++ text " has no primary key")) else rowKeyFrom tb tb.key vals []

/-- Values set at positions of a row that has none yet. -/
def placed (ncols : Nat) (pos : List Nat) (vals : List (Option Bytes)) : List (Option Bytes) :=
  (pos.zip vals).foldl (fun l p => l.set p.1 p.2) (List.replicate ncols none)

/-- Whether the parent has a row whose key is the child's values; an absence among them references nothing. -/
def fkParentHas (t : Trees) (parent : Table) (ppos : List Nat) (vals : List Bytes) : Except Error Bool :=
  if vals.any isAbsentBytes then .ok true
  else
    match rowKey parent (placed parent.ncols ppos (vals.map some)) with
    | .error e => .error e
    | .ok key =>
      match rowGet t parent key with
      | .ok _ => .ok true
      | .error e => if e.code = .notFound then .ok false else .error e

def fkKeyFrom : Bytes → List Bytes → Option Bytes
  | k, [] => some k
  | k, v :: vals =>
    match keyAppend k v ⟨false, false⟩ with
    | (.ok, k, _) => fkKeyFrom k vals
    | _ => none

def fkKey (vals : List Bytes) : Option Bytes := fkKeyFrom [] vals

def rowValue (tb : Table) (row : Bytes) (i : Nat) : Except Error Bytes :=
  if tb.ncols ≤ i then .error (fail .misuse (tb.name ++ text " has no column " ++ number i))
  else
    match rowDecode tb row with
    | .error e => .error e
    | .ok v => .ok (v.getD i [])

def fkCount (child : Table) (cpos : List Nat) (want : Bytes) : List (Bytes × Bytes) → Except Error Nat
  | [] => .ok 0
  | (_, row) :: rows =>
    match cpos.mapM (rowValue child row) with
    | .error e => .error e
    | .ok vals =>
      match fkCount child cpos want rows with
      | .error e => .error e
      | .ok n => .ok (if ¬ vals.any isAbsentBytes ∧ fkKey vals = some want then n + 1 else n)

def fkWalk (t : Trees) (child : Table) (cpos : List Nat) (want : Bytes) : Except Error Nat :=
  match Engine.treeFind t child.rowsTree with
  | .error st => .error (storage st "a cursor could not be opened")
  | .ok m => fkCount child cpos want m.entries

def fkCheckChild (db : Db) (fks : List FkRec) (child : Table) (row : Vals) : Except Error Unit :=
  checkAll (fun k =>
    if !k.enforced || !k.bound || k.table ≠ child.name then .ok ()
    else
      match fkBound db k child with
      | none => .ok ()
      | some b =>
        match fkParentHas db.trees b.parent b.ppos (b.cpos.map (fun c => row.getD c [])) with
        | .error e => .error e
        | .ok true => .ok ()
        | .ok false =>
          .error (about (fail .foreignKey (text "foreign key `" ++ k.name ++ text "`: this row of `" ++ k.table ++
            text "` references a row of `" ++ k.ref ++ text "` that is not there")) (some k.table)
            none (some k.name))) fks

def fkCheckParent (db : Db) (fks : List FkRec) (parent : Table) (row : Vals) : Except Error Unit :=
  checkAll (fun k =>
    if !k.enforced || !k.bound || k.ref ≠ parent.name then .ok ()
    else
      match tableOpen db k.table with
      | .error _ => .ok ()
      | .ok child =>
        match fkBound db k child with
        | none => .ok ()
        | some b =>
          match fkKey (b.ppos.map (fun c => row.getD c [])) with
          | none => .ok ()
          | some want =>
            match fkWalk db.trees child b.cpos want with
            | .error e => .error e
            | .ok 0 => .ok ()
            | .ok n =>
              .error (about (fail .foreignKey (text "foreign key `" ++ k.name ++ text "`: " ++ number n ++
              text " row" ++ text (if n = 1 then "" else "s") ++ text " of `" ++ k.table ++ text "` still reference" ++
                text (if n = 1 then "s" else "") ++ text " this row of `" ++ k.ref ++
                text "`")) (some k.ref) none (some k.name))) fks

def rowValues (tb : Table) (vals : List (Option Bytes)) : Vals :=
  tb.cols.mapIdx (fun i c => (vals.getD i none).getD c.missing)

def ckCheckRow (h : Host) (tb : Table) (row : Vals) : Except Error Unit :=
  if (h.checks tb).isEmpty then .ok ()
  else
    match checkAll (fun p => valueFits tb.name p.1 p.2) (tb.cols.zip row) with
    | .error e => .error e
    | .ok () => checkAll (fun ck => ck row) (h.checks tb)

/-! ## Serials -/

def readU64 (v : Bytes) : Option Nat :=
  if v.length ≠ 10 ∨ (v.headD 0).val ≠ SER_NUMBER ∨ ((v.drop 1).headD 0).val ≠ 1 then none
  else if INT64_MAX < leNat (v.drop 2) then none
  else some (leNat (v.drop 2))

def putExact (n : Nat) : Bytes := byte SER_NUMBER :: byte 1 :: lePut 8 n

def serialKey (tb : Table) (c : Nat) (scope : Bytes) : Except Error Bytes :=
  if tb.ncols ≤ c ∨ (tb.col c).gen ≠ .serial then
    .error (fail .misuse (tb.name ++ text ": column " ++ number c ++ text " is not a serial"))
  else .ok (bePut 2 c ++ scope)

def serialGet (t : Trees) (tb : Table) (c : Nat) (scope : Bytes) : Except Error Nat :=
  match serialKey tb c scope with
  | .error e => .error e
  | .ok k =>
    match Engine.get t tb.serialTree k with
    | .error .notFound => .ok 0
    | .error st => .error (storage st "reading a serial counter")
    | .ok got =>
      if got.length ≠ 8 then
        .error (fail .corrupt (tb.name ++ text ": a serial counter of " ++ number got.length ++ text " bytes, not 8"))
      else .ok (leNat got)

def serialSet (t : Trees) (tb : Table) (c : Nat) (scope : Bytes) (hw : Nat) : Except Error Unit × Trees :=
  match serialKey tb c scope with
  | .error e => (.error e, t)
  | .ok k =>
    match Engine.put t tb.serialTree k (lePut 8 hw) .none with
    | (.ok, t) => (.ok (), t)
    | (st, t) => (.error (storage st "writing a serial counter"), t)

structure Counter where
  col : Nat
  scope : Bytes
  next : Nat

def genScope (h : Host) (tb : Table) (c : Nat) (row : Vals) : Except Error Bytes :=
  if (tb.col c).scope = [] then .ok [] else h.scope tb c row

def Table.serials (tb : Table) : List Nat := (List.range tb.ncols).filter (fun c => (tb.col c).gen = .serial)

/-! ## Inserting -/

def genRandom (draw : Nat → Except Error HostValue) : Nat → List Column → List (Option Bytes) →
    Except Error (List (Option Bytes))
  | i, c :: cols, v :: vals =>
    if c.gen = .random ∧ v = none then
      match draw i with
      | .error e => .error e
      | .ok b =>
        match genRandom draw (i + 1) cols vals with
        | .error e => .error e
        | .ok vs => .ok (some b.bytes :: vs)
    else
      match genRandom draw (i + 1) cols vals with
      | .error e => .error e
      | .ok vs => .ok (v :: vs)
  | _, _, vals => .ok vals

/-- What a serial's counter moves up to where the row gives the serial, never down: zero leaves it. -/
def givenSerial (t : Trees) (tb : Table) (c : Nat) (scope given : Bytes) : Except Error Nat :=
  match readU64 given with
  | none => .ok 0
  | some v =>
    match serialGet t tb c scope with
    | .error e => .error e
    | .ok hw => .ok (if hw < v then v else 0)

def genSerials (h : Host) (t : Trees) (tb : Table) : List Nat → List (Option Bytes) → Vals →
    Except Error (List (Option Bytes) × Vals × List Counter)
  | [], vals, whole => .ok (vals, whole, [])
  | c :: cs, vals, whole =>
    match genScope h tb c whole with
    | .error e => .error e
    | .ok scope =>
      match vals.getD c none with
      | some given =>
        match givenSerial t tb c scope given with
        | .error e => .error e
        | .ok next =>
          match genSerials h t tb cs vals whole with
          | .error e => .error e
          | .ok (vs, w, ns) => .ok (vs, w, ⟨c, scope, next⟩ :: ns)
      | none =>
        match serialGet t tb c scope with
        | .error e => .error e
        | .ok hw =>
          if INT64_MAX ≤ hw then
            .error (fail .serial (text "serial `" ++ tb.name ++ text "." ++ (tb.col c).name ++
              text "` has reached " ++ number INT64_MAX ++ text " in this scope: there is no next number"))
          else
            match genSerials h t tb cs (vals.set c (some (putExact (hw + 1)))) (whole.set c (putExact (hw + 1))) with
            | .error e => .error e
            | .ok (vs, w, ns) => .ok (vs, w, ⟨c, scope, hw + 1⟩ :: ns)

/-- The generated values of a row about to be inserted; the second of the answers is the row as it will be written. -/
def genFill (h : Host) (t : Trees) (tb : Table) (vals : List (Option Bytes)) (draw : Nat → Except Error HostValue) :
    Except Error (List (Option Bytes) × Vals × List Counter) :=
  match genRandom draw 0 tb.cols vals with
  | .error e => .error e
  | .ok vals => genSerials h t tb tb.serials vals (rowValues tb vals)

def genCommit (tb : Table) : Trees → List Counter → Except Error Unit × Trees :=
  inTurn (fun t c => if c.next = 0 then (.ok (), t) else serialSet t tb c.col c.scope c.next)

def genRedraws (tb : Table) (omitted : Nat → Bool) (dup : Int) : Bool :=
  let cols := if dup = -1 then tb.key else if 0 < dup then
    ((tb.idx[dup.toNat - 1]?).map (fun x => x.cols.map (·.1))).getD [] else []
  cols.any (fun c => (tb.col c).gen = .random && omitted c)

def URL_SAFE : Bytes := text "ABCDEFGHIJKLMNOPQRSTUVWXYZabcdefghijklmnopqrstuvwxyz0123456789-_"

/-- `alphabet_chars`: how many characters an alphabet has, no more than a number. -/
def alphabetChars : Nat → Bytes → Nat
  | 0, _ => 0
  | _ + 1, [] => 0
  | n + 1, b :: l =>
    let len := if b.val < 0x80 then 1 else if b.val / 32 = 6 then 2 else if b.val / 16 = 14 then 3 else 4
    alphabetChars n (l.drop (len - 1)) + 1

def spaceFrom (na : Nat) : Nat → Nat → Nat
  | 0, v => v
  | n + 1, v => if 10 ^ 18 / na < v then 0 else spaceFrom na n (v * na)

def randomSpace (c : Column) : Nat :=
  if c.kind = .integer then if c.length = 0 then 0 else 10 ^ (c.length - 1) * 9
  else spaceFrom (alphabetChars RANDOM_MAX_ALPHABET (c.alphabet.getD URL_SAFE)) (if c.length = 0 then 22
    else c.length) 1

def allTaken (tb : Table) (omitted : Nat → Bool) (e : Error) : Error :=
  let c := (((List.range tb.ncols).filter (fun c => (tb.col c).gen = .random && omitted c)).head?).map tb.col
  let space := (c.map randomSpace).getD 0
  { e with message := (e.message.take 300 ++ text ": random `" ++ (c.map Column.name).getD (text "?") ++
      text "` can hold " ++ (if space = 0 then text "more than 10^18" else number space) ++ text " values, and " ++
      number GEN_DRAWS ++ text " draws in a row were all taken").take 511 }

def rowChecks (h : Host) (fks : List FkRec) (tb : Table) (db : Db) (whole : Vals) : Except Error Unit :=
  if fks.isEmpty && (h.checks tb).isEmpty then .ok ()
  else
    match ckCheckRow h tb whole with
    | .error e => .error e
    | .ok () => fkCheckChild db fks tb whole

/-- A row filled, checked and inserted, drawn again while a draw is taken; `n` draws are left after this one. -/
def insertRow (h : Host) (fks : List FkRec) (tb : Table) (vals : List (Option Bytes))
    (random : Nat → Nat → Except Error HostValue) : Nat → Db → Except Error Unit × Db
  | n, db =>
    match genFill h db.trees tb vals (random n) with
    | .error e => (.error e, db)
    | .ok (filled, whole, counters) =>
      match rowChecks h fks tb db whole with
      | .error e => (.error e, db)
      | .ok () =>
        match rowInsert db.trees tb filled with
        | (.ok _, t) =>
          match genCommit tb t counters with
          | (r, t) => (r, { db with trees := t })
        | (.error e, t) =>
          let omitted := fun c => (vals.getD c none).isNone
          if e.code = Code.duplicate ∧ genRedraws tb omitted e.dup then
            match n with
            | 0 => (.error (allTaken tb omitted e), { db with trees := t })
            | n + 1 => insertRow h fks tb vals random n { db with trees := t }
          else (.error e, { db with trees := t })

/-- What a statement answers, the row its refusal is about, counted from one, whether it is refused with some of its
rows written, and what it leaves. -/
structure Result where
  answer : Except Error Nat
  row : Nat
  partWay : Bool
  db : Db

def inRow (source : String) (many : Bool) (row : Nat) (e : Error) : Error :=
  if many then
    { e with message :=
        (text "row " ++ number row ++ text " of " ++ text source ++ text ": " ++ e.message.take 400).take 511 }
  else e

/-- The rows of an INSERT, `done` before them: each evaluated on the database the rows before it have left. -/
def insertRows (h : Host) (fks : List FkRec) (tb : Table) (random : Nat → Nat → Nat → Except Error HostValue)
    (source : String) (many : Bool) : Nat → List (Db → Except Error (List (Option Bytes))) → Db → Result
  | done, [], db => ⟨.ok done, 0, false, db⟩
  | done, row :: rows, db =>
    match row db with
    | .error e => ⟨.error (inRow source many (done + 1) e), done + 1, decide (0 < done), db⟩
    | .ok vals =>
      match insertRow h fks tb vals (random done) (GEN_DRAWS - 1) db with
      | (.error e, db) => ⟨.error (inRow source many (done + 1) e), done + 1, decide (0 < done), db⟩
      | (.ok (), db) => insertRows h fks tb random source many (done + 1) rows db

/-- An item evaluated and converted to the column it is for; none is `DEFAULT`. -/
def giveItem (h : Host) (tb : Table) (db : Db) (p : Nat × Option Expr) : Except Error (Option Bytes) :=
  match p.2 with
  | none => .ok none
  | some e =>
    match e db with
    | .error err => .error err
    | .ok v =>
      match h.convert tb p.1 v with
      | .error err => .error err
      | .ok v => .ok (some v.bytes)

def giveAll (h : Host) (tb : Table) (targets : List Nat) (items : List (Option Expr)) (db : Db) :
    Except Error (List (Option Bytes)) := (targets.zip items).mapM (giveItem h tb db)

def valuesRow (h : Host) (tb : Table) (targets : List Nat) (row : List (Option Expr)) (db : Db) :
    Except Error (List (Option Bytes)) :=
  match giveAll h tb targets row db with
  | .error e => .error e
  | .ok vs => .ok (placed tb.ncols targets vs)

def queryRow (h : Host) (tb : Table) (targets : List Nat) (items : List HostValue) (db : Db) :
    Except Error (List (Option Bytes)) :=
  if items.length ≠ targets.length then .error (fail .misuse (text "a row of the query did not hold its columns"))
  else valuesRow h tb targets (items.map (fun v => some (fun _ => .ok v))) db

inductive Source where
  | values (v : ValuesRows)
  | query (nout : Nat) (q : Db → Except Error (List (List HostValue)))

/-- One value for each column, and nothing in VALUES that reads the rows the statement is writing. -/
def planInsert (tb : Table) (targets : List Nat) : Source → Except Error Unit
  | .values v =>
    if v.rowlen ≠ targets.length then
      .error (fail .syntaxError (text "INSERT has " ++ number v.rowlen ++ text " value" ++
        text (if v.rowlen = 1 then "" else "s") ++ text " for " ++ number targets.length ++ text " column" ++
        text (if targets.length = 1 then "" else "s")))
    else checkAll (checkAll bindItem) v.rows
  | .query nout _ =>
    if nout ≠ targets.length then
      .error (fail .syntaxError (text "the query gives " ++ number nout ++ text " column" ++
        text (if nout = 1 then "" else "s") ++ text " for " ++ number targets.length ++ text " column" ++
        text (if targets.length = 1 then "" else "s") ++ text " of " ++ tb.name))
    else .ok ()

def runInsert (h : Host) (fks : List FkRec) (tb : Table) (targets : List Nat) (source : Source)
    (random : Nat → Nat → Nat → Except Error HostValue) (db : Db) : Result :=
  match source with
  | .values v =>
    insertRows h fks tb random "VALUES" (1 < v.rows.length) 0
    (v.rows.map (fun r => valuesRow h tb targets (itemsOf r))) db
  | .query _ q =>
    match q db with
    | .error e => ⟨.error e, 0, false, db⟩
    | .ok rows => insertRows h fks tb random "the query" (1 < rows.length) 0 (rows.map (queryRow h tb targets)) db

/-! ## Updating and deleting -/

/-- A row to be changed: its key, and for an UPDATE its new values, none where a column takes its default. -/
structure RowChange where
  key : Bytes
  vals : List (Option Bytes)

structure Walk where
  keys : Db → Except Error (List Bytes)
  once : ∀ db ks, keys db = .ok ks → ks.Nodup

/-- What an UPDATE or DELETE does to the rows its walk meets and its WHERE keeps: none to set is a DELETE. -/
structure Changing where
  walk : Walk
  keep : Db → Vals → Except Error Bool
  update : Bool
  targets : List Nat
  sets : List (Option RowExpr)

def setValues (h : Host) (tb : Table) (s : Changing) (db : Db) (v : Vals) : Except Error (List (Option Bytes)) :=
  if !s.update then .ok [] else giveAll h tb s.targets (s.sets.map (fun e => e.map (fun e db => e db v))) db

def collect (h : Host) (tb : Table) (s : Changing) (db : Db) : List Bytes → Except Error (List RowChange)
  | [] => .ok []
  | key :: keys =>
    match rowGet db.trees tb key with
    | .error e => .error e
    | .ok row =>
      match rowDecode tb row with
      | .error e => .error e
      | .ok v =>
        match s.keep db v with
        | .error e => .error e
        | .ok false => collect h tb s db keys
        | .ok true =>
          match setValues h tb s db v with
          | .error e => .error e
          | .ok vals =>
            match collect h tb s db keys with
            | .error e => .error e
            | .ok cs => .ok (⟨key, vals⟩ :: cs)

def Changing.given (s : Changing) (tb : Table) (c : RowChange) : List (Option Bytes) :=
  placed tb.ncols s.targets ((s.targets.zip c.vals).map (fun p => some (p.2.getD (tb.col p.1).missing)))

def Changing.newVals (s : Changing) (tb : Table) (c : RowChange) (old : Vals) : Vals :=
  List.zipWith (fun g o => g.getD o) (s.given tb c) old

def fkCheckChange (h : Host) (fks : List FkRec) (tb : Table) (s : Changing) (db : Db) (c : RowChange) :
    Except Error Unit :=
  match rowGet db.trees tb c.key with
  | .error e => .error e
  | .ok row =>
    match rowDecode tb row with
    | .error e => .error e
    | .ok old =>
      if !s.update then fkCheckParent db fks tb old
      else
        match ckCheckRow h tb (s.newVals tb c old) with
        | .error e => .error e
        | .ok () =>
          match fkCheckChild db fks tb (s.newVals tb c old) with
          | .error e => .error e
          | .ok () =>
            if tb.key.any (fun i => old.getD i [] ≠ (s.newVals tb c old).getD i []) then fkCheckParent db fks tb old
            else .ok ()

def fkCheckChanges (h : Host) (fks : List FkRec) (tb : Table) (s : Changing) (db : Db) (cs : List RowChange) :
    Except Error Unit :=
  if (s.update && !(h.checks tb).isEmpty) || fks.any (fun k => k.enforced &&
    (k.table = tb.name || k.ref = tb.name)) then
    checkAll (fkCheckChange h fks tb s db) cs
  else .ok ()

/-- One serial of one change: the counter it moves up, where the change gives the serial a value. -/
def genCheckSerial (h : Host) (tb : Table) (s : Changing) (old new : Vals) (c : Nat) : Except Error (Option Counter) :=
  match genScope h tb c old with
  | .error e => .error e
  | .ok before =>
    match genScope h tb c new with
    | .error e => .error e
    | .ok scope =>
      if before ≠ scope ∧ c ∉ s.targets then
        .error (fail .serial (text "this UPDATE moves a row of `" ++ tb.name ++ text "` to another scope of serial `" ++
          (tb.col c).name ++ text "`, whose number belongs to the old one: set `" ++ (tb.col c).name ++
          text "` in the same UPDATE to number it in the new scope"))
      else if c ∈ s.targets then .ok ((readU64 (new.getD c [])).map (fun v => ⟨c, scope, v⟩))
      else .ok none

def genCheckUpdate (h : Host) (tb : Table) (s : Changing) (db : Db) (c : RowChange) :
    Except Error (List (Option Counter)) :=
  match rowGet db.trees tb c.key with
  | .error e => .error e
  | .ok row =>
    match rowDecode tb row with
    | .error e => .error e
    | .ok old => tb.serials.mapM (genCheckSerial h tb s old (s.newVals tb c old))

def genCheckUpdates (h : Host) (tb : Table) (s : Changing) (db : Db) (cs : List RowChange) :
    Except Error (List Counter) :=
  if !s.update || tb.serials.isEmpty then .ok []
  else
    match cs.mapM (genCheckUpdate h tb s db) with
    | .error e => .error e
    | .ok bumps => .ok (bumps.flatten.filterMap id)

def applyChange (tb : Table) (s : Changing) (t : Trees) (c : RowChange) : Except Error Unit × Trees :=
  if s.update then
    match rowUpdate t tb c.key (s.given tb c) with
    | (.ok _, t) => (.ok (), t)
    | (.error e, t) => (.error e, t)
  else rowDelete t tb c.key

def applyChanges (tb : Table) (s : Changing) : Nat → Trees → List RowChange → Except Error Nat × Bool × Trees
  | done, t, [] => (.ok done, false, t)
  | done, t, c :: cs =>
    match applyChange tb s t c with
    | (.error e, t) => (.error e, decide (0 < done), t)
    | (.ok (), t) => applyChanges tb s (done + 1) t cs

def bumpsApply (tb : Table) : Trees → List Counter → Except Error Unit × Trees :=
  inTurn (fun t b =>
    match serialGet t tb b.col b.scope with
    | .error e => (.error e, t)
    | .ok hw => if hw < b.next then serialSet t tb b.col b.scope b.next else (.ok (), t))

def runUpdateDelete (h : Host) (fks : List FkRec) (tb : Table) (s : Changing) (db : Db) : Result :=
  match s.walk.keys db with
  | .error e => ⟨.error e, 0, false, db⟩
  | .ok keys =>
    match collect h tb s db keys with
    | .error e => ⟨.error e, 0, false, db⟩
    | .ok cs =>
      match fkCheckChanges h fks tb s db cs with
      | .error e => ⟨.error e, 0, false, db⟩
      | .ok () =>
        match genCheckUpdates h tb s db cs with
        | .error e => ⟨.error e, 0, false, db⟩
        | .ok bumps =>
          match applyChanges tb s 0 db.trees cs with
          | (.error e, partWay, t) => ⟨.error e, 0, partWay, { db with trees := t }⟩
          | (.ok done, _, t) =>
            match bumpsApply tb t bumps with
            | (.error e, t) => ⟨.error e, 0, decide (0 < done), { db with trees := t }⟩
            | (.ok (), t) => ⟨.ok done, 0, false, { db with trees := t }⟩

/-- A statement that changes rows of one table. -/
inductive Stmt where
  | insert (table : Bytes) (targets : List Nat) (source : Source) (random : Nat → Nat → Nat → Except Error HostValue)
  | change (table : Bytes) (s : Changing)

def Stmt.run (h : Host) (fks : List FkRec) (db : Db) : Stmt → Result
  | .insert name targets source random =>
    match tableOpen db name with
    | .error e => ⟨.error e, 0, false, db⟩
    | .ok tb =>
      match planInsert tb targets source with
      | .error e => ⟨.error e, 0, false, db⟩
      | .ok () => runInsert h fks tb targets source random db
  | .change name s =>
    match tableOpen db name with
    | .error e => ⟨.error e, 0, false, db⟩
    | .ok tb => runUpdateDelete h fks tb s db

end Gsql
end Gbasic
