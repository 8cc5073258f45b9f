import Gbasic.Key
import Gbasic.Xsort
/-!
# SqlSetOp — UNION, INTERSECT and EXCEPT over the rows of their sides

Each side's rows are gathered and combined by counting copies of each row's key, the components of its columns one
after another: in memory with two tallies (`combine`), or past the budget off two sorters (`combineSpilled`).  A row is
its columns' bytes.  Rows are kept and read back without failure; a tally's keys are looked for in turn, where the
source has them in a hash map.
-/
namespace Gbasic
namespace SetOp

open Key (keyAppend)
open Xsort (GsXsort)

abbrev Bytes := List Byte

abbrev Row := List Bytes

inductive SqlSetOp where
  | union | intersect | except
  deriving DecidableEq

inductive Errno where
  | misuse | expression | storage
  deriving DecidableEq

/-- `sort_budget` and `sort_run` of the connection, and what a row takes in memory. -/
structure Cfg where
  sortBudget : Nat
  sortRun : Nat
  cost : Row → Nat

/-! ## Rows held -/

/-- Rows in memory until they take the budget, then on disk. -/
structure RowStore where
  rows : List Row
  held : Nat
  spooled : Bool

def RowStore.none : RowStore := ⟨[], 0, false⟩

def RowStore.add (q : Cfg) (s : RowStore) (row : Row) : RowStore :=
  if s.spooled then { s with rows := s.rows ++ [row] }
  else ⟨s.rows ++ [row], s.held + q.cost row, decide (q.sortBudget < s.held + q.cost row)⟩

def RowStore.addAll (q : Cfg) (s : RowStore) (rows : List Row) : RowStore := rows.foldl (RowStore.add q) s

/-! ## A row's key -/

def keyItems (key : Bytes) : Row → Except Errno Bytes
  | [] => .ok key
  | v :: vs =>
    match keyAppend key v ⟨false, false⟩ with
    | (.ok, key, _) => keyItems key vs
    | _ => .error .expression

def rowKey (n : Nat) (row : Row) : Except Errno Bytes := if row.length ≠ n then .error .misuse else keyItems [] row

/-! ## In memory -/

abbrev Tally := List (Bytes × Nat)

def Tally.find : Tally → Bytes → Option Nat
  | [], _ => none
  | (k, c) :: t, key => if k = key then some c else Tally.find t key

def Tally.put : Tally → Bytes → Nat → Tally
  | [], key, n => [(key, n)]
  | (k, c) :: t, key, n => if k = key then (k, n) :: t else (k, c) :: Tally.put t key n

/-- The count under a key, or zero. -/
def Tally.count (t : Tally) (key : Bytes) : Nat := (t.find key).getD 0

def countRight (n : Nat) : List Row → Tally → Except Errno Tally
  | [], t => .ok t
  | row :: rows, t =>
    match rowKey n row with
    | .error e => .error e
    | .ok k => countRight n rows (t.put k (t.count k + 1))

structure Counts where
  right : Tally
  emitted : Tally
  out : RowStore

def passRight (op : SqlSetOp) (all : Bool) (right : Tally) (k : Bytes) : Bool × Tally :=
  match op with
  | .union => (true, right)
  | .intersect =>
    if 0 < right.count k then (true, if all then right.put k (right.count k - 1) else right) else (false, right)
  | .except =>
    if all then (if 0 < right.count k then (false, right.put k (right.count k - 1)) else (true, right))
    else ((right.find k).isNone, right)

def combineRow (q : Cfg) (op : SqlSetOp) (all : Bool) (c : Counts) (k : Bytes) (row : Row) : Counts :=
  let (keep, right) := passRight op all c.right k
  if keep then
    if all then { c with right := right, out := c.out.add q row }
    -- the plain forms keep one copy of each row
    else if c.emitted.count k = 0 then ⟨right, c.emitted.put k 1, c.out.add q row⟩
    else { c with right := right, emitted := c.emitted.put k (c.emitted.count k + 1) }
  else { c with right := right }

def combineSide (q : Cfg) (op : SqlSetOp) (all : Bool) (n : Nat) : List Row → Counts → Except Errno Counts
  | [], c => .ok c
  | row :: rows, c =>
    match rowKey n row with
    | .error e => .error e
    | .ok k => combineSide q op all n rows (combineRow q op all c k row)

def combineHeld (q : Cfg) (op : SqlSetOp) (all : Bool) (n : Nat) (l r : RowStore) : Except Errno RowStore :=
  match (if op = .union then .ok [] else countRight n r.rows []) with
  | .error e => .error e
  | .ok right =>
    match combineSide q op all n (if op = .union then l.rows ++ r.rows else l.rows) ⟨right, [], .none⟩ with
    | .error e => .error e
    | .ok c => .ok c.out

/-! ## Off the sorter -/

/-- `key_suffix`: a tag, and a number whose bytes are in its order. -/
def keySuffix (key : Bytes) (tag seq : Nat) : Bytes := key ++ byte tag :: bePut 8 seq

def keySeq (key : Bytes) : Nat := beNat (key.drop (key.length - 8))

def sortSide (n tag : Nat) : List Row → Nat → GsXsort → Except Errno GsXsort
  | [], _, s => .ok s
  | row :: rows, seq, s =>
    match rowKey n row with
    | .error e => .error e
    | .ok k =>
      match Xsort.add s (keySuffix k tag seq) [] with
      | .error _ => .error .storage
      | .ok s => sortSide n tag rows (seq + 1) s

/-- The rows of one key as they go past: how many the right side has left, and how many were kept. -/
structure Group where
  key : Option Bytes
  right : Nat
  kept : Nat

def keepEntry (op : SqlSetOp) (all : Bool) (right kept : Nat) : Bool :=
  match op with
  | .union => decide (kept = 0)
  | .intersect => if all then decide (kept < right) else decide (kept = 0 ∧ 0 < right)
  | .except => if all then decide (right = 0) else decide (kept = 0 ∧ right = 0)

def decideEntry (op : SqlSetOp) (all : Bool) (g : Group) (ek : Bytes) : Group × Bool :=
  let kn := ek.length - 9
  let g := if g.key = some (ek.take kn) then g else ⟨some (ek.take kn), 0, 0⟩
  -- a right-side row of INTERSECT or EXCEPT
  if ek[kn]? = some 0 then ({ g with right := g.right + 1 }, false)
  else
    let keep := keepEntry op all g.right g.kept
    ({ g with
      right := if op = .except ∧ all = true ∧ keep = false then g.right - 1 else g.right
      kept := if op = .intersect ∨ op = .union ∨ all = false then g.kept + keep.toNat else g.kept }, keep)

def keepLoop (op : SqlSetOp) (all : Bool) (s₁ s₂ : GsXsort) (g : Group) : Except Errno GsXsort :=
  match _h : Xsort.next s₁ with
  | .error _ => .error .storage
  | .ok (none, _) => .ok s₂
  | .ok (some (ek, _), s₁') =>
    let (g, keep) := decideEntry op all g ek
    match (if keep then Xsort.add s₂ (ek.drop (ek.length - 9 + 1)) [] else .ok s₂) with
    | .error _ => .error .storage
    | .ok s₂ => keepLoop op all s₁' s₂ g
termination_by s₁.rest
decreasing_by exact Xsort.next_rest _h

def outLoop (q : Cfg) (l r : List Row) (s₂ : GsXsort) (out : RowStore) : Except Errno RowStore :=
  match _h : Xsort.next s₂ with
  | .error _ => .error .storage
  | .ok (none, _) => .ok out
  | .ok (some (ek, _), s₂') =>
    match (if keySeq ek < l.length then l[keySeq ek]? else r[keySeq ek - l.length]?) with
    | none => .error .storage
    | some row => outLoop q l r s₂' (out.add q row)
termination_by s₂.rest
decreasing_by exact Xsort.next_rest _h

def combineSpilled (q : Cfg) (op : SqlSetOp) (all : Bool) (n : Nat) (l r : RowStore) : Except Errno RowStore :=
  match sortSide n 1 l.rows 0 (Xsort.opened q.sortRun) with
  | .error e => .error e
  | .ok s₁ =>
    -- a UNION's sides are one stream; otherwise the right side's rows sort first
    match sortSide n (if op = .union then 1 else 0) r.rows l.rows.length s₁ with
    | .error e => .error e
    | .ok s₁ =>
      match Xsort.finish s₁ with
      | .error _ => .error .storage
      | .ok s₁ =>
        match keepLoop op all s₁ (Xsort.opened q.sortRun) ⟨none, 0, 0⟩ with
        | .error e => .error e
        | .ok s₂ =>
          match Xsort.finish s₂ with
          | .error _ => .error .storage
          | .ok s₂ => outLoop q l.rows r.rows s₂ .none

/-- `combine`: the rows of `l op r`. -/
def combine (q : Cfg) (op : SqlSetOp) (all : Bool) (n : Nat) (l r : RowStore) : Except Errno RowStore :=
  if op = .union ∧ all = true then .ok (RowStore.none.addAll q (l.rows ++ r.rows))
  else if l.spooled = true ∨ r.spooled = true ∨ q.sortBudget < l.held + r.held then combineSpilled q op all n l r
  else combineHeld q op all n l r

/-! ## A chain's tree -/

inductive SqlStmt (α : Type) where
  | select (a : α)
  | setop (op : SqlSetOp) (all : Bool) (left right : SqlStmt α)

/-- `side_rows`: a SELECT's rows gathered, and a compound's sides combined. -/
def sideRows (q : Cfg) (n : Nat) : SqlStmt (Except Errno (List Row)) → Except Errno RowStore
  | .select rows =>
    match rows with
    | .error e => .error e
    | .ok rows => .ok (RowStore.none.addAll q rows)
  | .setop op all left right =>
    match sideRows q n left with
    | .error e => .error e
    | .ok l =>
      match sideRows q n right with
      | .error e => .error e
      | .ok r => combine q op all n l r

end SetOp
end Gbasic
