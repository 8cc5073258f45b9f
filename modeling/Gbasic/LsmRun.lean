import Gbasic.LsmBackup
/-!
# LsmRun — the open store and its operations

`Sys` is an open store with what its users hold: transactions, cursors and backups, each under a handle of the caller's;
whether its lease has been taken by another machine (`fenced`); and whether it was closed.  `apiStep` is one operation,
its answer `none` when it has none to give (a handle that is not open, a call that answers nothing, a store that was
closed); `apiRun` is a run of operations on a world, each observed with the states around it and the calls it made.
-/
namespace Gbasic
namespace Lsm

structure Sys where
  db : Store
  txns : Nat → Option Txn
  curs : Nat → Option (Nat × Cur)
  baks : Nat → Option Backup
  fenced : Bool
  closed : Bool

namespace Sys

def setTxn (s : Sys) (h : Nat) (t : Option Txn) : Sys := { s with txns := fun j => if j = h then t else s.txns j }

def setCur (s : Sys) (c : Nat) (x : Option (Nat × Cur)) : Sys :=
  { s with curs := fun j => if j = c then x else s.curs j }

def setBak (s : Sys) (b : Nat) (x : Option Backup) : Sys := { s with baks := fun j => if j = b then x else s.baks j }

def fence (s : Sys) (l : List (IoOp × Option Errno)) : Sys :=
  { s with fenced := s.fenced || l.any (fun p => p.2 = some .fenced) }

def dropCurs (s : Sys) (h : Nat) : Sys :=
  { s with curs := fun j => (s.curs j).bind (fun x => if x.1 = h then none else some x) }

end Sys

/-- An open store nobody uses yet. -/
def sysNew (db : Store) : Sys := ⟨db, fun _ => none, fun _ => none, fun _ => none, false, false⟩

/-- An operation.  `treeList` is told how many names its caller lets pass, `check` the obsolete numbers that are not yet
known deleted, and `leaseKeep` what a renewal of the lease answers, OK where none is due. -/
inductive Op where
  | beginRead (h : Nat) | beginWrite (h : Nat)
  | commit (h : Nat) (sync : Bool) | abort (h : Nat)
  | sync | flush
  | treeCreate (h : Nat) (name : Bytes) | treeDrop (h : Nat) (name : Bytes) | treeReplace (h : Nat)
      (target source : Bytes)
  | get (h : Nat) (tree key : Bytes) | put (h : Nat) (tree key value : Bytes) (fl : PutFlags)
  | del (h : Nat) (tree key : Bytes)
  | cursorOpen (h c : Nat) (tree : Bytes) | cursorClose (c : Nat)
  | seek (c : Nat) (key : Bytes) (mode : SeekMode) | first (c : Nat) | last (c : Nat) | next (c : Nat) | prev (c : Nat)
  | key (c : Nat) | value (c : Nat)
  | cursorPut (c : Nat) (value : Bytes) | cursorDelete (c : Nat)
  | savepoint (h : Nat) | rollback (h : Nat) | release (h : Nat)
  | backupBegin (h b dest : Nat) | backupStep (b : Nat) (budget : Option Nat) | backupEnd (b : Nat)
  | treeList (h : Nat) (stop : Option Nat) | estimate (h : Nat) (tree : Bytes) | txnId (h : Nat)
  | check (garbage : List Nat) | leaseKeep (renewed : Status) | close

/-- What an operation gives back besides its status: a value, a key, whether a cursor stands on a record, the names of
trees, a count or an id. -/
inductive Out where
  | none
  | val (v : Val)
  | key (k : Bytes)
  | pos (p : Bool)
  | names (l : List Bytes)
  | num (n : Nat)
  deriving DecidableEq

abbrev Answer := Option Status × Out

def onTxn (s : Sys) (h : Nat) (f : Rd → Store → Txn → Txn × Answer) : M (Sys × Answer) :=
  match s.txns h with
  | none => pure (s, none, .none)
  | some t => do
    let rd ← reads s.db
    let (t, a) := f rd s.db t
    return (s.setTxn h (some t), a)

def onCur (s : Sys) (c : Nat) (f : Rd → Store → Txn → Cur → Txn × Cur × Answer) : M (Sys × Answer) :=
  match s.curs c with
  | none => pure (s, none, .none)
  | some (h, x) =>
    match s.txns h with
    | none => pure (s, none, .none)
    | some t => do
      let rd ← reads s.db
      let (t, x, a) := f rd s.db t x
      return ((s.setTxn h (some t)).setCur c (some (h, x)), a)

def onMove (s : Sys) (c : Nat) (f : Rd → Store → Txn → Cur → Cur × Status × Bool) : M (Sys × Answer) :=
  onCur s c (fun rd db t x => let (x, rc, p) := f rd db t x; (t, x, some rc, .pos p))

def onWrite (s : Sys) (h : Nat) (f : Store → Txn → M (Store × Txn × Status)) : M (Sys × Answer) :=
  match s.txns h with
  | none => pure (s, none, .none)
  | some t => do
    let (db, t, rc) ← f s.db t
    return ({ s with db := db }.setTxn h (some t), some rc, .none)

def outVal (v : Option Val) : Out := (v.map Out.val).getD .none

def leaseKeep (s : Sys) (renewed : Status) : Sys × Status :=
  if s.fenced then (s, .fenced) else ({ s with fenced := decide (renewed = .fenced) }, renewed)

def openStep (s : Sys) : Op → M (Sys × Answer)
  | .beginRead h =>
    if (s.txns h).isSome then pure (s, none, .none)
    else do
      let (db, rc, t) ← beginRead s.db
      return ({ s with db := db }.setTxn h t, some rc, .none)
  | .beginWrite h =>
    if (s.txns h).isSome then pure (s, none, .none)
    else
      let (db, rc, t) := beginWrite s.fenced s.db
      pure ({ s with db := db }.setTxn h t, some rc, .none)
  | .commit h sync =>
    match s.txns h with
    | none => pure (s, none, .none)
    | some t => do
      let (db, rc) ← commit s.db t sync
      if rc = .misuse ∧ t.write = false then return ({ s with db := db }, some rc, .none)
      return (({ s with db := db }.setTxn h none).dropCurs h, some rc, .none)
  | .abort h =>
    match s.txns h with
    | none => pure (s, none, .none)
    | some t => do
      let db ← abort s.db t
      return (({ s with db := db }.setTxn h none).dropCurs h, none, .none)
  | .sync => do
    let (db, rc) ← sync s.db
    return ({ s with db := db }, some rc, .none)
  | .flush => do
    let (db, rc) ← flush s.db
    return ({ s with db := db }, some rc, .none)
  | .treeCreate h name => onTxn s h (fun rd db t => let (t, rc) := treeCreate rd db t name; (t, some rc, .none))
  | .treeDrop h name => onTxn s h (fun rd db t => let (t, rc) := treeDrop rd db t name; (t, some rc, .none))
  | .treeReplace h a b => onTxn s h (fun rd db t => let (t, rc) := treeReplace rd db t a b; (t, some rc, .none))
  | .get h tree key => onTxn s h (fun rd db t => let (t, rc, v) := get rd db t tree key; (t, some rc, outVal v))
  | .put h tree key value fl => onWrite s h (fun db t => put db t tree key value fl)
  | .del h tree key => onWrite s h (fun db t => del db t tree key)
  | .cursorOpen h c tree =>
    match s.txns h with
    | none => pure (s, none, .none)
    | some t =>
      if (s.curs c).isSome then pure (s, none, .none)
      else do
      let rd ← reads s.db
      let (t, rc, x) := cursorOpen rd s.db t tree
      return ((s.setTxn h (some t)).setCur c (x.map (fun x => (h, x))), some rc, .none)
  | .cursorClose c =>
    match s.curs c with
    | none => pure (s, none, .none)
    | some (h, x) => pure ((s.setTxn h ((s.txns h).map (fun t => cursorClose t x))).setCur c none, none, .none)
  | .seek c key mode => onMove s c (fun rd db t x => seek rd db t x key mode)
  | .first c => onMove s c first
  | .last c => onMove s c last
  | .next c => onMove s c next
  | .prev c => onMove s c prev
  | .key c => onCur s c (fun rd db t x =>
      let (x, rc, k) := key rd db t x
      (t, x, some rc, (k.map Out.key).getD .none))
  | .value c => onCur s c (fun rd db t x => let (x, rc, v) := value rd db t x; (t, x, some rc, outVal v))
  | .cursorPut c v => onCur s c (fun rd db t x => let (t, x, rc) := cursorPut rd db t x v; (t, x, some rc, .none))
  | .cursorDelete c => onCur s c (fun rd db t x => let (t, x, rc) := cursorDelete rd db t x; (t, x, some rc, .none))
  | .savepoint h => onTxn s h (fun _ db t => let (t, rc) := savepoint db t; (t, some rc, .none))
  | .rollback h => onWrite s h (fun db t => rollbackSavepoint db t)
  | .release h => onTxn s h (fun _ _ t => let (t, rc) := releaseSavepoint t; (t, some rc, .none))
  | .backupBegin h b dest =>
    match s.txns h with
    | none => pure (s, none, .none)
    | some t =>
      if (s.baks b).isSome then pure (s, none, .none)
      else do
      let (bk, rc) ← backupBegin s.db t dest
      return (s.setBak b bk, some rc, .none)
  | .backupStep b budget =>
    match s.baks b with
    | none => pure (s, none, .none)
    | some bk => do
      let (bk, rc) ← backupStep s.db bk budget
      return (s.setBak b (some bk), some rc, .pos bk.finished)
  | .backupEnd b => pure (s.setBak b none, none, .none)
  | .treeList h stop => onTxn s h (fun rd db t => let (rc, l) := treeList rd db t stop; (t, some rc, .names l))
  | .estimate h tree => onTxn s h (fun rd db t => let (t, rc, n) := estimate rd db t tree; (t, some rc, .num n))
  | .txnId h => onTxn s h (fun _ db t => let (rc, id) := txnId db t; (t, some rc, .num id))
  | .check garbage => do
    let rc ← check s.db garbage
    return (s, some rc, .none)
  | .leaseKeep renewed =>
    let (s, rc) := leaseKeep s renewed
    pure (s, some rc, .none)
  | .close => do
    let (db, rc, gone) ← close s.db
    return ({ s with db := db, closed := gone }, some rc, .none)

def apiStep (s : Sys) (op : Op) : M (Sys × Answer) :=
  if s.closed then pure (s, none, .none) else openStep s op

structure Obs where
  op : Op
  before : Sys
  wBefore : World
  ans : Answer
  after : Sys
  wAfter : World

/-- The calls made between two worlds, newest first. -/
def World.calls (w w' : World) : List (IoOp × Option Errno) := w'.trace.take (w'.trace.length - w.trace.length)

def Obs.calls (o : Obs) : List (IoOp × Option Errno) := o.wBefore.calls o.wAfter

def apiObs (s : Sys) (w : World) (op : Op) : Obs :=
  let r := Prog.run exec (apiStep s op) w
  ⟨op, s, w, r.1.2, r.1.1.fence (w.calls r.2), r.2⟩

/-- A run, each operation observed. -/
def apiRun : List Op → Sys → World → List Obs
  | [], _, _ => []
  | op :: ops, s, w =>
    let o := apiObs s w op
    o :: apiRun ops o.after o.wAfter

end Lsm
end Gbasic
