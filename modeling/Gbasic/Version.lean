import Gbasic.Engine
/-!
# Version — the version store

The current value of a column lives in its row, with the stamp of the transaction that made it current; a value that is
replaced is kept under the id it started at, and a removal is a version of its own.  A transaction's id is the engine's
(`txn_id`) and a parameter here.  Every call is given the trees and answers a status and the trees it leaves, refused or
not.
-/
namespace Gbasic
namespace Version

open Lsm (Status GS_MAX_KEY)
open Engine (Trees Bytes put treeCreate treeFind seekLe)

def HIST_NAME : Bytes := [0, 104, 105, 115, 116, 111, 114, 121]

def TIME_NAME : Bytes := [0, 99, 111, 109, 109, 105, 116, 116, 105, 109, 101]

def V_REMOVED : Nat := 1
def V_HDR : Nat := 13

structure Stamp where
  start : Unsigned 8
  second : Unsigned 8
  author : Unsigned 4
  deriving DecidableEq, Repr

/-- A column of a row of a table: what `hist_prefix` names, no longer than memory is. -/
structure Cell where
  table : Bytes
  row : Bytes
  column : Unsigned 4
  table_fits : table.length < 2 ^ 64
  row_fits : row.length < 2 ^ 64
  deriving DecidableEq

def histPrefix (c : Cell) : Bytes :=
  uleb c.table.length ++ (c.table ++ (uleb c.row.length ++ (c.row ++ uleb c.column.val)))

def histKey (c : Cell) (start : Unsigned 8) : Bytes := histPrefix c ++ bePut 8 start.val

def putCreating (t : Trees) (tree key value : Bytes) : Status × Trees :=
  match put t tree key value .none with
  | (.notFound, t) =>
    match treeCreate t tree with
    | (.ok, t) => put t tree key value .none
    | r => r
  | r => r

/-- The greatest record at or before `key`; none where the tree does not exist. -/
def floorOf (t : Trees) (tree key : Bytes) : Except Status (Option (Bytes × Bytes)) :=
  match treeFind t tree with
  | .error .notFound => .ok none
  | .error rc => .error rc
  | .ok m => .ok (seekLe m key)

def versionAt (t : Trees) (second : Unsigned 8) : Except Status (Unsigned 8) :=
  match floorOf t TIME_NAME (bePut 8 second.val) with
  | .error rc => .error rc
  | .ok none => .ok (toUnsigned 8 0)
  | .ok (some (k, v)) => if k.length ≠ 8 ∨ v.length ≠ 8 then .error .corrupt else .ok (toUnsigned 8 (leNat v))

def versionBegin (t : Trees) (id second : Unsigned 8) (author : Unsigned 4) : Except Status Stamp × Trees :=
  -- the last second indexed: the floor of the greatest second there is
  match floorOf t TIME_NAME (List.replicate 8 255) with
  | .error rc => (.error rc, t)
  | .ok found =>
    match found with
    | some (k, _) =>
      if k.length ≠ 8 then (.error .corrupt, t)
      else record t (if second < toUnsigned 8 (beNat k) then toUnsigned 8 (beNat k) else second)
    | none => record t second
where
  record (t : Trees) (second : Unsigned 8) : Except Status Stamp × Trees :=
    match putCreating t TIME_NAME (bePut 8 second.val) (lePut 8 id.val) with
    | (.ok, t) =>
      -- so a read in this same transaction finds the history tree
      match treeFind t HIST_NAME with
      | .ok _ => (.ok ⟨id, second, author⟩, t)
      | .error .notFound =>
        match treeCreate t HIST_NAME with
        | (.ok, t) => (.ok ⟨id, second, author⟩, t)
        | (rc, t) => (.error rc, t)
      | .error rc => (.error rc, t)
    | (rc, t) => (.error rc, t)

def versionBytes (flags : Nat) (second : Unsigned 8) (author : Unsigned 4) (value : Bytes) : Bytes :=
  byte flags :: (lePut 8 second.val ++ (lePut 4 author.val ++ value))

def putVersion (t : Trees) (c : Cell) (start : Unsigned 8) (flags : Nat) (second : Unsigned 8) (author : Unsigned 4)
    (value : Bytes) : Status × Trees :=
  putCreating t HIST_NAME (histKey c start) (versionBytes flags second author value)

def versionKeep (t : Trees) (c : Cell) (was : Stamp) (old : Bytes) (now : Stamp) : Status × Trees :=
  -- a value this transaction made current is not kept: no reader saw it
  if now.start ≤ was.start then (.ok, t) else putVersion t c was.start 0 was.second was.author old

def versionRemove (t : Trees) (c : Cell) (now : Stamp) : Status × Trees :=
  putVersion t c now.start V_REMOVED now.second now.author []

/-- `gsql_version_asof`: `cur` is the current value and its stamp, or none. -/
def versionAsof (t : Trees) (c : Cell) (asof : Unsigned 8) (cur : Option (Stamp × Bytes)) :
    Except Status (Stamp × Bytes) :=
  match cur with
  | some (stamp, value) => if stamp.start ≤ asof then .ok (stamp, value) else fromHistory
  | none => fromHistory
where
  fromHistory : Except Status (Stamp × Bytes) :=
    let key := histKey c asof
    match floorOf t HIST_NAME key with
    | .error rc => .error rc
    | .ok none => .error .notFound
    | .ok (some (k, v)) =>
      -- another column's history, or before this column's first version
      if k.length ≠ key.length ∨ k.take (key.length - 8) ≠ key.take (key.length - 8) then .error .notFound
      else if v.length < V_HDR then .error .corrupt
      else if (v.headD 0).val % 2 = V_REMOVED then .error .notFound
      else
        .ok (⟨toUnsigned 8 (beNat (k.drop (k.length - 8))), toUnsigned 8 (leNat ((v.drop 1).take 8)),
          toUnsigned 4 (leNat ((v.drop 9).take 4))⟩, v.drop V_HDR)

end Version
end Gbasic
