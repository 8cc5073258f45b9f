import Gbasic.Table
/-!
# TableRow — rows inserted, updated and deleted

Each operation first checks (`insertChecks`, `updateChecks`) and then writes: the row, and an entry for each index in
turn.  A write the engine refuses ends the operation there, with what was written before it left.
-/
namespace Gbasic
namespace Gsql

open Lsm (Status)
open Engine (Trees Bytes get put del)

/-- A unique entry that another row already holds; `self` is the row allowed to hold it. -/
def uniqueTaken (t : Trees) (tb : Table) (i : Nat) (x : Index) (e : Entry) (self : Option Bytes) :
    Except Error Unit :=
  if e.uniqueForm then
    match get t x.tree e.key with
    | .error .notFound => .ok ()
    | .error st => .error (storage st "reading a unique index")
    | .ok got =>
      if self = some got then .ok ()
      else
        .error { about (fail .duplicate (tb.name ++ text ": unique index " ++ x.name ++
        text " already holds that value"))
          (some tb.name) none (some x.name) with dup := i + 1 }
  else .ok ()

def uniquesTaken (t : Trees) (tb : Table) (self : Option Bytes) : Nat → List (Index × Entry) → Except Error Unit
  | _, [] => .ok ()
  | i, (x, e) :: es =>
    match uniqueTaken t tb i x e self with
    | .error err => .error err
    | .ok () => uniquesTaken t tb self (i + 1) es

def keyFree (t : Trees) (tb : Table) (k : Bytes) : Except Error Unit :=
  match get t tb.rowsTree k with
  | .ok _ =>
    .error { about (fail .duplicate (tb.name ++ text ": the primary key already holds that value"))
      (some tb.name) none (some (text "primary key")) with dup := -1 }
  | .error .notFound => .ok ()
  | .error st => .error (storage st "reading a row")

def putEntry (t : Trees) (x : Index) (e : Entry) (rowkey : Bytes) : Except Error Unit × Trees :=
  match put t x.tree e.key (if e.uniqueForm then rowkey else []) .none with
  | (.ok, t) => (.ok (), t)
  | (st, t) => (.error (storage st "writing an index entry"), t)

def delEntry (t : Trees) (tb : Table) (x : Index) (e : Entry) : Except Error Unit × Trees :=
  match del t x.tree e.key with
  | (.ok, t) => (.ok (), t)
  | (.notFound, t) =>
    (.error (fail .corrupt (tb.name ++ text ": index " ++ x.name ++ text " was missing an entry for a row")), t)
  | (st, t) => (.error (storage st "removing an index entry"), t)

def inTurn {ε : Type} (f : Trees → ε → Except Error Unit × Trees) : Trees → List ε → Except Error Unit × Trees
  | t, [] => (.ok (), t)
  | t, a :: as =>
    match f t a with
    | (.error err, t) => (.error err, t)
    | (.ok (), t) => inTurn f t as

/-! ## Inserting -/

structure Checked where
  vals : Vals
  key : Bytes
  rowid : Nat
  entries : List (Index × Entry)

def insertKey (t : Trees) (tb : Table) (v : Vals) : Except Error (Bytes × Nat) :=
  if tb.key ≠ [] then
    match primaryKey tb v with
    | .error e => .error e
    | .ok k =>
      match keyFree t tb k with
      | .error e => .error e
      | .ok () => .ok (k, 0)
  else
    match metaGet t (metaTableKey tb) with
    | .error e => .error e
    | .ok rowid => .ok (hiddenKey rowid, rowid)

def insertChecks (t : Trees) (tb : Table) (vals : List (Option Bytes)) : Except Error Checked :=
  match resolve tb vals none with
  | .error e => .error e
  | .ok v =>
    match insertKey t tb v with
    | .error e => .error e
    | .ok (k, rowid) =>
      match entriesBuild tb v k with
      | .error e => .error e
      | .ok es =>
        match uniquesTaken t tb none 0 es with
        | .error e => .error e
        | .ok () => .ok ⟨v, k, rowid, es⟩

def putEntries (rowkey : Bytes) : Trees → List (Index × Entry) → Except Error Unit × Trees :=
  inTurn (fun t p => putEntry t p.1 p.2 rowkey)

def insertRest (t : Trees) (tb : Table) (c : Checked) : Except Error Bytes × Trees :=
  match putEntries c.key t c.entries with
  | (.error err, t) => (.error err, t)
  | (.ok (), t) =>
    if tb.key = [] then
      match metaPut t (metaTableKey tb) (c.rowid + 1) with
      | (.error err, t) => (.error err, t)
      | (.ok (), t) => (.ok c.key, t)
    else (.ok c.key, t)

def insertWrites (t : Trees) (tb : Table) (c : Checked) : Except Error Bytes × Trees :=
  match put t tb.rowsTree c.key (rowEncode tb c.vals) .noOverwrite with
  | (.ok, t) => insertRest t tb c
  | (st, t) => (.error (storage st "writing a row"), t)

/-- `gsql_row_insert`: the new row's key. -/
def rowInsert (t : Trees) (tb : Table) (vals : List (Option Bytes)) : Except Error Bytes × Trees :=
  match insertChecks t tb vals with
  | .error e => (.error e, t)
  | .ok c => insertWrites t tb c

/-! ## Updating and deleting -/

def rowGet (t : Trees) (tb : Table) (rowkey : Bytes) : Except Error Bytes :=
  match get t tb.rowsTree rowkey with
  | .ok row => .ok row
  | .error .notFound => .error (fail .notFound (tb.name ++ text " has no such row"))
  | .error st => .error (storage st "reading a row")

structure Change where
  index : Index
  old : Entry
  new : Entry

structure Update where
  vals : Vals
  key : Bytes
  changes : List Change

def changesOf (olds news : List (Index × Entry)) : List Change :=
  (olds.zip news).map (fun p => ⟨p.1.1, p.1.2, p.2.2⟩)

def updateKey (t : Trees) (tb : Table) (rowkey : Bytes) (v : Vals) : Except Error Bytes :=
  match (if tb.key ≠ [] then primaryKey tb v else .ok rowkey) with
  | .error e => .error e
  | .ok k =>
    if k ≠ rowkey then
      match keyFree t tb k with
      | .error e => .error e
      | .ok () => .ok k
    else .ok k

def updateChecks (t : Trees) (tb : Table) (rowkey : Bytes) (vals : List (Option Bytes)) : Except Error Update :=
  match rowGet t tb rowkey with
  | .error e => .error e
  | .ok oldrow =>
    match rowDecode tb oldrow with
    | .error e => .error e
    | .ok oldv =>
      match resolve tb vals (some oldv) with
      | .error e => .error e
      | .ok v =>
        match updateKey t tb rowkey v with
        | .error e => .error e
        | .ok k =>
          match entriesBuild tb oldv rowkey with
          | .error e => .error e
          | .ok olde =>
            match entriesBuild tb v k with
            | .error e => .error e
            | .ok newe =>
              match uniquesTaken t tb (some rowkey) 0 newe with
              | .error e => .error e
              | .ok () => .ok ⟨v, k, changesOf olde newe⟩

def updateRow (t : Trees) (tb : Table) (rowkey : Bytes) (u : Update) : Status × Trees :=
  if u.key ≠ rowkey then
    match del t tb.rowsTree rowkey with
    | (.ok, t) => put t tb.rowsTree u.key (rowEncode tb u.vals) .noOverwrite
    | r => r
  else put t tb.rowsTree rowkey (rowEncode tb u.vals) .none

def changeEntry (tb : Table) (moved : Bool) (k : Bytes) (t : Trees) (c : Change) : Except Error Unit × Trees :=
  if !moved && c.old = c.new then (.ok (), t)
  else
    match delEntry t tb c.index c.old with
    | (.error err, t) => (.error err, t)
    | (.ok (), t) => putEntry t c.index c.new k

def updateEntries (tb : Table) (moved : Bool) (k : Bytes) : Trees → List Change → Except Error Unit × Trees :=
  inTurn (changeEntry tb moved k)

/-- `gsql_row_update`: the row's key now. -/
def rowUpdate (t : Trees) (tb : Table) (rowkey : Bytes) (vals : List (Option Bytes)) : Except Error Bytes × Trees :=
  match updateChecks t tb rowkey vals with
  | .error e => (.error e, t)
  | .ok u =>
    match updateRow t tb rowkey u with
    | (.ok, t) =>
      match updateEntries tb (u.key ≠ rowkey) u.key t u.changes with
      | (.error err, t) => (.error err, t)
      | (.ok (), t) => (.ok u.key, t)
    | (st, t) => (.error (storage st "writing a row"), t)

def delEntries (tb : Table) : Trees → List (Index × Entry) → Except Error Unit × Trees :=
  inTurn (fun t p => delEntry t tb p.1 p.2)

def deleteChecks (t : Trees) (tb : Table) (rowkey : Bytes) : Except Error (List (Index × Entry)) :=
  match rowGet t tb rowkey with
  | .error e => .error e
  | .ok row =>
    match rowDecode tb row with
    | .error e => .error e
    | .ok v => entriesBuild tb v rowkey

def rowDelete (t : Trees) (tb : Table) (rowkey : Bytes) : Except Error Unit × Trees :=
  match deleteChecks t tb rowkey with
  | .error e => (.error e, t)
  | .ok es =>
    match delEntries tb t es with
    | (.error err, t) => (.error err, t)
    | (.ok (), t) =>
      match del t tb.rowsTree rowkey with
      | (.ok, t) => (.ok (), t)
      | (st, t) => (.error (storage st "removing a row"), t)

end Gsql
end Gbasic
