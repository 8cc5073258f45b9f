import Gbasic.TableRow
/-!
# TableCatalog — tables created, renamed and changed

The catalog holds a table's record under its name; how a record is written in bytes is left out, so a record reads as
it was written.  An index is built from the rows already there: every entry first, then the entries in the order of
their keys.  The external sorter is a stable sort here.
-/
namespace Gbasic
namespace Gsql

open Lsm (Status GS_MAX_KEY)
open Engine (Trees Bytes treeCreate treeDrop treeFind put)

def RANDOM_MAX_LENGTH : Nat := 1024
def RANDOM_MAX_ALPHABET : Nat := 4096
def SERIAL_MAX_SCOPE : Nat := 32

/-- A transaction's trees, the catalog apart: there is none before the first table. -/
structure Db where
  catalog : Option (SortedMap Bytes Table)
  trees : Trees

structure TableDecl where
  name : Bytes
  cols : List Column
  key : List Nat

structure IndexDecl where
  name : Bytes
  cols : List (Nat × Bool)
  unique : Bool

/-! ## Declarations checked -/

def checkName (what : String) (name : Bytes) : Except Error Unit :=
  if name.length = 0 then .error (fail .schema (text "a " ++ text what ++ text " needs a name"))
  else if MAX_NAME < name.length then
    .error (fail .schema (text "a " ++ text what ++ text "'s name is " ++ number name.length ++
      text " bytes, past the limit of " ++ number MAX_NAME))
  else .ok ()

def utf8Char (l : Bytes) : Nat :=
  let p := (l.headD 0).val
  let len := if p < 0x80 then 1 else if p / 32 = 6 then 2 else if p / 16 = 14 then 3 else if p / 8 = 30 then 4 else 0
  if len = 0 ∨ l.length < len then 0
  else if ((l.take len).drop 1).all (fun b => decide (b.val / 64 = 2)) then len
  else 0

def alphabetFrom (here : Bytes) : Nat → List Bytes → Bytes → Except Error Nat
  | 0, seen, _ => .ok seen.length
  | _ + 1, seen, [] => .ok seen.length
  | n + 1, seen, l =>
    let len := utf8Char l
    if len = 0 then .error (fail .schema (here ++ text ": the alphabet is not UTF-8 text"))
    else if l.take len ∈ seen then
      .error (fail .schema (here ++ text ": the alphabet holds " ++ [byte 96] ++ l.take len ++ [byte 96] ++
        text " twice, which would make it twice as likely"))
    else if RANDOM_MAX_ALPHABET < seen.length + 1 then
      .error (fail .schema (here ++ text ": an alphabet of at most " ++ number RANDOM_MAX_ALPHABET ++
      text " characters"))
    else alphabetFrom here n (seen ++ [l.take len]) (l.drop len)

def checkAlphabet (here a : Bytes) : Except Error Unit :=
  match alphabetFrom here a.length [] a with
  | .error e => .error e
  | .ok count =>
    if count < 2 then
      .error (fail .schema (here ++ text ": an alphabet of " ++ number count ++ text " character" ++
        text (if count = 1 then "" else "s") ++ text " draws nothing random: it needs two or more"))
    else .ok ()

def checkGenerator (table : Bytes) (c : Column) : Except Error Unit :=
  let here := table ++ text "." ++ c.name
  match c.gen with
  | .none =>
    if c.scope ≠ [] ∨ c.length ≠ 0 ∨ c.alphabet.isSome then
      .error (fail .schema (here ++ text ": a scope, length or alphabet needs a generator"))
    else .ok ()
  | gen =>
    if c.dflt.isSome then
      .error (fail .schema (here ++ text ": a generated column takes no DEFAULT: both would choose its value"))
    else if gen = .serial then
      if c.kind ≠ .integer then
        .error (fail .schema (here ++ text ": SERIAL counts, so it belongs on an INTEGER column, not " ++
          text (kindName c.kind)))
      else if c.length ≠ 0 ∨ c.alphabet.isSome then
        .error (fail .schema (here ++ text ": a serial takes no length or alphabet"))
      else if SERIAL_MAX_SCOPE < c.scope.length then
        .error (fail .schema (here ++ text ": a scope of " ++ number c.scope.length ++
          text " expressions, past the limit of " ++ number SERIAL_MAX_SCOPE))
      else if c.scope.any (fun s => s = []) then .error (fail .schema (here ++ text ": an empty scope expression"))
      else .ok ()
    else if c.scope ≠ [] then .error (fail .schema (here ++ text ": a random value has no scope"))
    else if c.kind = .integer then
      if c.alphabet.isSome then
        .error (fail .schema (here ++ text (": an integer is drawn in digits, so it takes a number of digits and " ++
          "no alphabet")))
      else if 18 < c.length then
        .error (fail .schema (here ++ text ": RANDOM(" ++ number c.length ++
          text ") on an integer: at most 18 digits fit one"))
      else .ok ()
    else if c.kind ≠ .string then
      .error (fail .schema (here ++ text ": RANDOM draws text or an integer, not " ++ text (kindName c.kind)))
    else if RANDOM_MAX_LENGTH < c.length then
      .error (fail .schema (here ++ text ": RANDOM(" ++ number c.length ++ text "): at most " ++
        number RANDOM_MAX_LENGTH ++ text " characters"))
    else
      match c.alphabet with
      | none => .ok ()
      | some a => checkAlphabet here a

def checkColumnDecl (table : Bytes) (c : Column) : Except Error Unit :=
  match checkName "column" c.name with
  | .error e => .error e
  | .ok () =>
    if c.currency ≠ [] ∧ c.kind ≠ .money then
      .error (fail .schema (table ++ text "." ++ c.name ++ text ": only a money column names a currency"))
    else if 7 < c.currency.length then
      .error (fail .schema (table ++ text "." ++ c.name ++ text ": a currency code is at most 7 letters"))
    else
      match c.dflt with
      | none => checkGenerator table c
      | some d =>
        match valueFits table c d with
        | .error e => .error (fail .schema (text "the default refused by its own column: " ++ e.message))
        | .ok () =>
          if isAbsent d then
            .error (fail .schema (table ++ text "." ++ c.name ++
              text ": a default of unknown is no default; leave it out"))
          else checkGenerator table c

def checkColumns (table : Bytes) : List Column → List Column → Except Error Unit
  | _, [] => .ok ()
  | seen, c :: cols =>
    match checkColumnDecl table c with
    | .error e => .error e
    | .ok () =>
      if seen.any (fun d => d.name = c.name) then
        .error (fail .schema (table ++ text " has two columns named " ++ c.name))
      else checkColumns table (seen ++ [c]) cols

def checkPositions (table : Bytes) (what : String) (ncols : Nat) : List Nat → List Nat → Except Error Unit
  | _, [] => .ok ()
  | seen, p :: pos =>
    if ncols ≤ p then
      .error (fail .schema (table ++ text ": the " ++ text what ++ text " names column " ++ number p ++
        text ", and there are " ++ number ncols))
    else if p ∈ seen then
      .error (fail .schema (table ++ text ": the " ++ text what ++ text " names column " ++ number p ++ text " twice"))
    else checkPositions table what ncols (seen ++ [p]) pos

def copyColumn (c : Column) : Column := { c with notNull := c.notNull || c.gen ≠ .none }

/-! ## The catalog -/

def catalogGet (db : Db) (name : Bytes) : Except Status Table :=
  match db.catalog with
  | none => .error .notFound
  | some c =>
    if GS_MAX_KEY < name.length then .error .notFound
    else
      match c.get name with
      | some tb => .ok tb
      | none => .error .notFound

def tableOpen (db : Db) (name : Bytes) : Except Error Table :=
  match catalogGet db name with
  | .ok tb => .ok tb
  | .error .notFound => .error (fail .notFound (text "there is no table " ++ name))
  | .error st => .error (storage st "reading the catalog")

def schemaWrite (db : Db) (tb : Table) : Except Error Unit × Db :=
  match db.catalog with
  | none => (.error (storage .notFound "writing the catalog"), db)
  | some c =>
    if GS_MAX_KEY < tb.name.length then (.error (storage .tooLarge "writing the catalog"), db)
    else (.ok (), { db with catalog := some (c.put tb.name tb) })

def ensureTrees (db : Db) : Except Error Unit × Db :=
  match treeCreate db.trees META with
  | (.ok, t) => (.ok (), ⟨some (db.catalog.getD .empty), t⟩)
  | (.exists, t) => (.ok (), ⟨some (db.catalog.getD .empty), t⟩)
  | (st, t) => (.error (storage st "creating the meta tree"), ⟨some (db.catalog.getD .empty), t⟩)

def nextId (t : Trees) : Except Error Nat × Trees :=
  match metaGet t NEXT with
  | .error e => (.error e, t)
  | .ok id =>
    match metaPut t NEXT (id + 1) with
    | (.ok (), t) => (.ok id, t)
    | (.error e, t) => (.error e, t)

def createChecks (d : TableDecl) : Except Error Unit :=
  match checkName "table" d.name with
  | .error e => .error e
  | .ok () =>
    if d.cols.length = 0 then .error (fail .schema (d.name ++ text " has no columns"))
    else if MAX_ITEMS < d.cols.length then
      .error (fail .schema (d.name ++ text " has " ++ number d.cols.length ++ text " columns, past the limit of " ++
        number MAX_ITEMS))
    else
      match checkColumns d.name [] d.cols with
      | .error e => .error e
      | .ok () =>
        match checkPositions d.name "primary key" d.cols.length [] d.key with
        | .error e => .error e
        | .ok () =>
          match d.key.find? (fun i => (d.cols.getD i default).kind = .record) with
          | some i =>
            .error (fail .schema (d.name ++ text "." ++ (d.cols.getD i default).name ++
              text " is a record, which has no order, so it cannot be in a key"))
          | none => .ok ()

def newTable (d : TableDecl) (id : Nat) : Table where
  name := d.name
  id := id
  version := 1
  cols := d.cols.mapIdx (fun i c => if i ∈ d.key then { copyColumn c with notNull := true } else copyColumn c)
  key := d.key
  idx := []

def createTrees (t : Trees) (tb : Table) : Status × Trees :=
  match treeCreate t tb.rowsTree with
  | (.ok, t) => if tb.hasSerial then treeCreate t tb.serialTree else (.ok, t)
  | r => r

def tableCreate (db : Db) (d : TableDecl) : Except Error Unit × Db :=
  match createChecks d with
  | .error e => (.error e, db)
  | .ok () =>
    match ensureTrees db with
    | (.error e, db) => (.error e, db)
    | (.ok (), db) =>
      match Engine.get db.trees VIEWS d.name with
      | .ok _ =>
        (.error (fail .exists (text "there is already a view " ++ d.name ++
          text ": tables and views share one set of names")), db)
      | .error _ =>
        match catalogGet db d.name with
        | .ok _ => (.error (fail .exists (text "there is already a table " ++ d.name)), db)
        | .error .notFound =>
          match nextId db.trees with
          | (.error e, t) => (.error e, { db with trees := t })
          | (.ok id, t) =>
            match createTrees t (newTable d id) with
            | (.ok, t) => schemaWrite { db with trees := t } (newTable d id)
            | (.exists, t) =>
              (.error (fail .corrupt (text "a tree of a new table " ++ d.name ++ text " is already there")),
                { db with trees := t })
            | (st, t) => (.error (storage st "creating a table's trees"), { db with trees := t })
        | .error st => (.error (storage st "reading the catalog"), db)

def tableRename (db : Db) (name newName : Bytes) : Except Error Unit × Db :=
  match checkName "table" newName with
  | .error e => (.error e, db)
  | .ok () =>
    match catalogGet db name with
    | .error .notFound => (.error (fail .notFound (text "there is no table " ++ name)), db)
    | .error st => (.error (storage st "reading the catalog"), db)
    | .ok tb =>
      match Engine.get db.trees VIEWS newName with
      | .ok _ =>
        (.error (fail .exists (text "there is already a view " ++ newName ++
          text ": tables and views share one set of names")), db)
      | .error _ =>
        match catalogGet db newName with
        | .ok _ => (.error (fail .exists (text "there is already a table " ++ newName)), db)
        | .error .notFound =>
          -- the record goes to its new name, which is the name it is read under
          (.ok (), { db with
            catalog := db.catalog.map (fun c => (c.del name).put newName { tb with name := newName }) })
        | .error st => (.error (storage st "reading the catalog"), db)

/-! ## Columns and indexes -/

def addColumnChecks (t : Trees) (tb : Table) (c : Column) : Except Error Unit :=
  match checkColumnDecl tb.name c with
  | .error e => .error e
  | .ok () =>
    if tb.cols.any (fun d => d.name = c.name) then
      .error (fail .schema (tb.name ++ text " already has a column " ++ c.name))
    else if c.notNull && c.dflt.isNone && c.gen = .none then
      .error (fail .schema (tb.name ++ text "." ++ c.name ++
        text " is NOT NULL with no default, so the rows already there would break it"))
    else if MAX_ITEMS ≤ tb.ncols then
      .error (fail .schema (tb.name ++ text " has " ++ number tb.ncols ++ text " columns, the limit"))
    else if c.gen = .none then .ok ()
    else
      match treeFind t tb.rowsTree with
      | .error st => .error (storage st "reading a table's rows")
      | .ok m =>
        if m.entries ≠ [] then
          .error (fail .schema (tb.name ++ text " already has rows, so a generated column " ++ c.name ++
            text " cannot be added: it would have no value for them"))
        else .ok ()

def withColumn (tb : Table) (c : Column) : Table :=
  { tb with cols := tb.cols ++ [copyColumn c], version := tb.version + 1 }

def tableAddColumn (db : Db) (tb : Table) (c : Column) : Except Error Unit × Db :=
  match addColumnChecks db.trees tb c with
  | .error e => (.error e, db)
  | .ok () =>
    if c.gen = .serial ∧ tb.hasSerial = false then
      match treeCreate db.trees tb.serialTree with
      | (.ok, t) => schemaWrite { db with trees := t } (withColumn tb c)
      | (.exists, t) =>
        (.error (fail .corrupt (tb.name ++ text "'s serial tree is already there")), { db with trees := t })
      | (st, t) => (.error (storage st "creating the serial tree"), { db with trees := t })
    else schemaWrite db (withColumn tb c)

def indexChecks (tb : Table) (d : IndexDecl) : Except Error Unit :=
  match checkName "index" d.name with
  | .error e => .error e
  | .ok () =>
    if d.cols.length = 0 then .error (fail .schema (text "index " ++ d.name ++ text " has no columns"))
    else if 64 < d.cols.length then
      .error (fail .schema (text "index " ++ d.name ++ text " has " ++ number d.cols.length ++
        text " columns, past the limit of 64"))
    else
      match checkPositions tb.name "index" tb.ncols [] (d.cols.map (·.1)) with
      | .error e => .error e
      | .ok () =>
        match d.cols.find? (fun p => (tb.col p.1).kind = .record) with
        | some p =>
          .error (fail .schema (tb.name ++ text "." ++ (tb.col p.1).name ++
            text " is a record, which has no order, so index " ++ d.name ++ text " cannot hold it"))
        | none =>
          if tb.idx.any (fun x => x.name = d.name) then
            .error (fail .exists (tb.name ++ text " already has an index " ++ d.name))
          else .ok ()

def withIndex (tb : Table) (x : Index) : Table := { tb with idx := tb.idx ++ [x], version := tb.version + 1 }

def indexPairs (tb : Table) (x : Index) : List (Bytes × Bytes) → Except Error (List (Bytes × Bytes))
  | [] => .ok []
  | (rk, rv) :: rows =>
    match rowDecode tb rv with
    | .error e => .error e
    | .ok v =>
      match indexEntry tb x v rk with
      | none => .error (fail .corrupt (text "a row of " ++ tb.name ++ text " has a value with no order"))
      | some e =>
        match indexPairs tb x rows with
        | .error err => .error err
        | .ok ps => .ok ((e.key, if e.uniqueForm then rk else []) :: ps)

def putSorted (tb : Table) (x : Index) : Option Bytes → Trees → List (Bytes × Bytes) → Except Error Unit × Trees
  | _, t, [] => (.ok (), t)
  | prev, t, (k, v) :: ps =>
    if prev = some k then
      (.error (fail .duplicate (tb.name ++ text ": two rows already hold the same value, so index " ++ x.name ++
        text " cannot be unique")), t)
    else
      match put t x.tree k v .none with
      | (.ok, t) => putSorted tb x (some k) t ps
      | (st, t) => (.error (storage st "writing an index entry"), t)

def indexBuild (t : Trees) (tb : Table) (x : Index) : Except Error Unit × Trees :=
  match treeFind t tb.rowsTree with
  | .error st => (.error (storage st "opening the rows"), t)
  | .ok m =>
    match indexPairs tb x m.entries with
    | .error e => (.error e, t)
    | .ok ps => putSorted tb x none t (ps.mergeSort (fun a b => decide (a.1 ≤ b.1)))

def indexCreate (db : Db) (tb : Table) (d : IndexDecl) : Except Error Unit × Db :=
  match indexChecks tb d with
  | .error e => (.error e, db)
  | .ok () =>
    match nextId db.trees with
    | (.error e, t) => (.error e, { db with trees := t })
    | (.ok id, t) =>
      let x : Index := ⟨d.name, id, d.cols, d.unique⟩
      match treeCreate t x.tree with
      | (.ok, t) =>
        match indexBuild t (withIndex tb x) x with
        | (.error e, t) => (.error e, { db with trees := (treeDrop t x.tree).2 })
        | (.ok (), t) =>
          match schemaWrite { db with trees := t } (withIndex tb x) with
          | (.error e, db) => (.error e, { db with trees := (treeDrop db.trees x.tree).2 })
          | r => r
      | (st, t) => (.error (storage st "creating an index tree"), { db with trees := t })

def withoutIndex (tb : Table) (i : Nat) : Table := { tb with idx := tb.idx.eraseIdx i, version := tb.version + 1 }

def indexDrop (db : Db) (tb : Table) (name : Bytes) : Except Error Unit × Db :=
  match tb.idx.findIdx? (fun x => x.name = name) with
  | none => (.error (fail .notFound (tb.name ++ text " has no index " ++ name)), db)
  | some i =>
    match tb.idx[i]? with
    | none => (.error (fail .notFound (tb.name ++ text " has no index " ++ name)), db)
    | some x =>
      match treeDrop db.trees x.tree with
      | (.ok, t) => schemaWrite { db with trees := t } (withoutIndex tb i)
      | (st, t) => (.error (storage st "dropping an index tree"), { db with trees := t })

end Gsql
end Gbasic
