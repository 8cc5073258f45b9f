import Gbasic.SqlRowExpr
/-!
# SqlSchema — constraints, and the statements that change a schema

Constraints of both kinds are kept under their names in one tree.  A check is kept as its text, with the table it is on
by name, and is planned again for each statement; a text that cannot be planned then is left out.  A table renamed takes
its checks to its new name.  A statement's answer is the schema it leaves: what a refused one undoes is not here.
-/
namespace Gbasic
namespace Gsql

open Engine (Trees Bytes)
open Key (SER_NULL SER_UNKNOWN SER_BOOL)

/-- `SqlCheck`: a CHECK as it is declared, with the column it was declared beside. -/
structure SqlCheck where
  name : Option Bytes
  column : Option Bytes
  text : Bytes

structure CkRec where
  name : Bytes
  table : Bytes
  text : Bytes
  bound : Bool

inductive Constraint where
  | check (c : CkRec)
  | foreign (k : FkRec)

def Constraint.table : Constraint → Bytes
  | .check c => c.table
  | .foreign k => k.table

structure Schema where
  db : Db
  constraints : SortedMap Bytes Constraint

structure ColDef where
  col : Column
  evaluated : Key.Readable ⟨false, false⟩ col.missing

/-! ## A check against one row -/

inductive Truth where
  | yes | no | unknown | other
  deriving DecidableEq

def truth (v : Bytes) : Truth :=
  let tag := (v.headD 0).val
  if tag = SER_BOOL then if (v.getD 1 0).val = 0 then .no else .yes
  else if tag = SER_UNKNOWN ∨ tag = SER_NULL then .unknown
  else .other

/-- `ck_row`: a check refuses a row it is false of; unknown passes. -/
def ckRow (r : RowHost) (c : CkRec) (t : RowTerm) (row : Vals) : Except Error Unit :=
  match t.eval r row with
  | .error e =>
    .error (about { e with message := (text "check `" ++ c.name.take 80 ++ text "` on `" ++ c.table.take 80 ++
      text "`: " ++ e.message.take 300).take 511 } (some c.table) none (some c.name))
  | .ok v =>
    match truth v with
    | .other =>
      .error (about (fail .expression (text "check `" ++ c.name ++ text "` on `" ++ c.table ++
        text "` is not a condition: it answers " ++ text (tagWord (v.headD 0).val))) (some c.table) none (some c.name))
    | .no =>
      .error (about (fail .check (text "check `" ++ c.name ++ text "` refuses this row of `" ++ c.table ++ text "`: " ++
        c.text ++ text " is false")) (some c.table) none (some c.name))
    | _ => .ok ()

def ckPlanned (r : RowHost) (tb : Table) : Constraint → Option (Vals → Except Error Unit)
  | .foreign _ => none
  | .check c =>
    if c.bound && c.table = tb.name then
      match r.plan tb c.text with
      | .ok t => some (ckRow r c t)
      | .error _ => none
    else none

def ckLoad (r : RowHost) (cs : SortedMap Bytes Constraint) (tb : Table) : List (Vals → Except Error Unit) :=
  cs.entries.filterMap (fun e => ckPlanned r tb e.2)

def fkAll (cs : SortedMap Bytes Constraint) : List FkRec :=
  cs.entries.filterMap (fun e => match e.2 with
    | .foreign k => some k
    | .check _ => none)

/-- The host of a statement: the checks are those kept, and the scopes the tables' own. -/
def RowHost.over (r : RowHost) (h : Host) (cs : SortedMap Bytes Constraint) : Host :=
  { r.scoped h with checks := ckLoad r cs }

/-! ## Checks declared -/

def ckName (table : Bytes) (d : SqlCheck) : Bytes :=
  match d.name, d.column with
  | some n, _ => n.take 599
  | none, some c => (table ++ text "_" ++ c ++ text "_check").take 599
  | none, none => (table ++ text "_check").take 599

def ckPlan (r : RowHost) (db : Db) (table s : Bytes) : Except Error (Table × RowTerm) :=
  match tableOpen db table with
  | .error _ => .error (fail .notFound (text "there is no table `" ++ table ++ text "`"))
  | .ok tb =>
    match r.plan tb s with
    | .error e => .error e
    | .ok t => .ok (tb, t)

def ckCount (r : RowHost) (tb : Table) (t : RowTerm) : List (Bytes × Bytes) → Except Error Nat
  | [] => .ok 0
  | (_, row) :: rows =>
    match rowDecode tb row with
    | .error e => .error e
    | .ok v =>
      match t.eval r v with
      | .error e => .error e
      | .ok x =>
        match ckCount r tb t rows with
        | .error e => .error e
        | .ok n => .ok (if truth x = .no then n + 1 else n)

def ckFailing (r : RowHost) (t : Trees) (tb : Table) (term : RowTerm) : Except Error Nat :=
  match Engine.treeFind t tb.rowsTree with
  | .error st => .error (storage st "a cursor could not be opened")
  | .ok m => ckCount r tb term m.entries

def isNoCondition (r : RowHost) (s : Bytes) : Bool :=
  match r.parse s with
  | .ok (.const (.ok v)) => v ≠ [] && (v.headD 0).val ≠ SER_BOOL && (v.headD 0).val ≠ SER_UNKNOWN &&
      (v.headD 0).val ≠ SER_NULL
  | _ => false

def ckCreate (r : RowHost) (s : Schema) (table : Bytes) (d : SqlCheck) : Except Error Schema :=
  let gen := ckName table d
  if (s.constraints.get gen).isSome then
    .error (fail .exists (text "there is already a constraint " ++ gen ++
      text (if d.name.isSome then "" else ": name this one with CONSTRAINT name")))
  else if isNoCondition r d.text then
    .error (fail .schema (text "check `" ++ gen ++ text "` is a constant that is not a condition"))
  else
    match ckPlan r s.db table d.text with
    | .error why =>
      .error (fail .schema (text "check `" ++ gen ++ text "` cannot be applied to `" ++ table ++ text "`: " ++
        why.message.take 399))
    | .ok (tb, t) =>
      match ckFailing r s.db.trees tb t with
      | .error e => .error e
      | .ok (n + 1) =>
        .error (fail .check (text "check `" ++ gen ++ text "`: " ++ number (n + 1) ++ text " row" ++
          text (if n = 0 then "" else "s") ++ text " of `" ++ table ++ text "` " ++
          text (if n = 0 then "fails" else "fail") ++ text " it; fix them first"))
      | .ok 0 =>
        match checkName "constraint" gen with
        | .error e => .error e
        | .ok () => .ok { s with constraints := s.constraints.put gen (.check ⟨gen, table, d.text, true⟩) }

def ckCreateAll (r : RowHost) (table : Bytes) : Schema → List SqlCheck → Except Error Schema
  | s, [] => .ok s
  | s, d :: ds =>
    match ckCreate r s table d with
    | .error e => .error e
    | .ok s => ckCreateAll r table s ds

def Constraint.follow (table renamed : Bytes) : Constraint → Constraint
  | .check c => .check (if c.table = table then { c with table := renamed } else c)
  | .foreign k => .foreign (if k.table = table then { k with table := renamed } else k)

/-! ## Schema statements -/

mutual

def RowText.namesColumn (n : Bytes) : RowText → Bool
  | .const _ => false
  | .name first _ => decide (first = n)
  | .op _ args => namesColumnAny n args

def namesColumnAny (n : Bytes) : List RowText → Bool
  | [] => false
  | e :: es => e.namesColumn n || namesColumnAny n es

end

/-- `scope_plan` of a column, which its scope may not read. -/
def planScope (r : RowHost) (tb : Table) (c : Column) (self : Option Nat) : Except Error Unit :=
  if c.scope = [] then .ok ()
  else
    match c.scope.mapM (r.plan tb) with
    | .error e =>
      .error (fail .schema (text "serial `" ++ tb.name ++ text "." ++ c.name ++ text "`'s scope cannot be applied: " ++
        e.message.take 399))
    | .ok ts =>
      if self.any (fun i => readsAny i ts) then
        .error (fail .schema (text "serial `" ++ tb.name ++ text "." ++ c.name ++ text "`'s scope reads `" ++ c.name ++
          text "` itself: the number would be needed to find the counter it comes from"))
      else .ok ()

def addedScope (r : RowHost) (tb : Table) (c : Column) : Except Error Unit :=
  if c.scope.any (fun s => match r.parse s with
      | .ok e => e.namesColumn c.name
      | .error _ => false) then
    .error (fail .schema (text "serial `" ++ tb.name ++ text "." ++ c.name ++ text "`'s scope reads `" ++ c.name ++
      text "` itself: the number would be needed to find the counter it comes from"))
  else planScope r tb c none

def uniqueName (table : Bytes) (cols : List Bytes) : Bytes :=
  let name := table ++ cols.flatMap (fun c => text "_" ++ c)
  name.take (if name.length < 296 then name.length else 295) ++ text "_key"

def createIndexes (table : Bytes) : Db → List (List Bytes) → Except Error Db
  | db, [] => .ok db
  | db, cols :: rest =>
    match tableOpen db table with
    | .error e => .error e
    | .ok tb =>
      match cols.mapM tb.find with
      | none =>
        .error (fail .notFound (text "UNIQUE names `" ++ (cols.find? (fun c => (tb.find c).isNone)).getD [] ++
          text "`, which is not a column of " ++ table))
      | some pos =>
        match indexCreate db tb ⟨uniqueName table cols, pos.map (fun i => (i, false)), true⟩ with
        | (.error e, _) => .error e
        | (.ok (), db) => createIndexes table db rest

/-- `CREATE TABLE`: what it makes of the foreign keys is a step of its own. -/
def Schema.createTable (r : RowHost) (s : Schema) (name : Bytes) (cols : List ColDef) (key : List Nat)
    (uniques : List (List Bytes)) (checks : List SqlCheck) : Except Error Schema :=
  match tableCreate s.db ⟨name, cols.map ColDef.col, key⟩ with
  | (.error e, _) => .error e
  | (.ok (), db) =>
    match tableOpen db name with
    | .error e => .error e
    | .ok tb =>
      match checkAll (fun i => planScope r tb (tb.col i) (some i)) (List.range tb.ncols) with
      | .error e => .error e
      | .ok () =>
        match createIndexes name db uniques with
        | .error e => .error e
        | .ok db => ckCreateAll r name { s with db := db } checks

def Schema.addColumn (r : RowHost) (s : Schema) (table : Bytes) (c : Column) : Except Error Schema :=
  match tableOpen s.db table with
  | .error e => .error e
  | .ok tb =>
    match addedScope r tb c with
    | .error e => .error e
    | .ok () =>
      match tableAddColumn s.db tb c with
      | (.error e, _) => .error e
      | (.ok (), db) => .ok { s with db := db }

def Schema.dropConstraint (s : Schema) (table name : Bytes) : Except Error Schema :=
  match s.constraints.get name with
  | none => .error (fail .notFound (text "there is no constraint " ++ name))
  | some c =>
    if c.table = table then .ok { s with constraints := s.constraints.del name }
    else .error (fail .notFound (text "table " ++ table ++ text " has no constraint " ++ name))

def Schema.rename (s : Schema) (table newName : Bytes) : Except Error Schema :=
  match tableRename s.db table newName with
  | (.error e, _) => .error e
  | (.ok (), db) => .ok ⟨db, s.constraints.mapVal (Constraint.follow table newName)⟩

/-- A statement that changes a schema or the rows of a table.  `ADD COLUMN` takes a CHECK beside its column. -/
inductive Statement where
  | createTable (ifNotExists : Bool) (name : Bytes) (cols : List ColDef) (key : List Nat) (uniques : List (List Bytes))
      (checks : List SqlCheck)
  | addColumn (table : Bytes) (col : ColDef) (check : Option SqlCheck)
  | addCheck (table : Bytes) (d : SqlCheck)
  | dropConstraint (table name : Bytes)
  | rename (table newName : Bytes)
  | rows (stmt : Stmt)

def Schema.skips (s : Schema) (ifNotExists : Bool) (name : Bytes) : Bool :=
  ifNotExists && (match tableOpen s.db name with
    | .ok _ => true
    | .error _ => false)

def Statement.run (r : RowHost) (h : Host) (s : Schema) : Statement → Except Error Schema
  | .createTable ifNotExists name cols key uniques checks =>
    if s.skips ifNotExists name then .ok s else s.createTable r name cols key uniques checks
  | .addColumn table col _ => s.addColumn r table col.col
  | .addCheck table d => ckCreate r s table d
  | .dropConstraint table name => s.dropConstraint table name
  | .rename table newName => s.rename table newName
  | .rows stmt =>
    match (stmt.run (r.over h s.constraints) (fkAll s.constraints) s.db).answer with
    | .error e => .error e
    | .ok _ => .ok { s with db := (stmt.run (r.over h s.constraints) (fkAll s.constraints) s.db).db }

end Gsql
end Gbasic
