import Gbasic.LsmTxn
/-!
# LsmCursor — the merging cursor, and the writes that need it

Forwards a cursor merges its sources where they stand (`findForward`); backwards it seeks each of them again
(`findBackward`).  After a spill its sources are rebuilt and put just past its key (`curLive`).
-/
namespace Gbasic
namespace Lsm

structure Cur where
  tree : Nat
  mods : Nat
  id : Nat
  src : List Src
  forward : Bool
  positioned : Bool
  between : Bool
  spills : Nat
  key : Option IKey
  value : EVal

inductive SeekMode where
  | ge | gt | le | lt | exact
  deriving DecidableEq, Repr

section
variable (rd : Rd) (db : Store) (t : Txn)

def visible (s : Src) (e : Ent) : Bool := s.priv || decide (e.seq ≤ .real t.snap)

def allSeek (c : Cur) (k : IKey) (q : Seq) : Cur :=
  { c with src := c.src.map (fun s => srcSeek rd (skEnv db t) s k q) }

def anyRc (l : List Src) : Status := ((l.find? (fun s => s.rc ≠ .ok)).map (·.rc)).getD .ok

def skipHidden (s : Src) : Src :=
  srcWhile rd (skEnv db t) (fun e => !visible t s e) (srcSize (skEnv db t) s + 1) s

def skipKey (k : IKey) (s : Src) : Src :=
  srcWhile rd (skEnv db t) (fun e => e.key = k) (srcSize (skEnv db t) s + 1) s

def forwardLoop : Nat → Cur → Cur × Status
  | 0, c => (c, .ok)
  | f + 1, c =>
    let c := { c with src := c.src.map (skipHidden rd db t) }
    let best := mergeMin (skEnv db t) c.src 0 none
    let rc := anyRc c.src
    if rc ≠ .ok then (c, rc)
    else
      match best with
      | none => (c, .ok)
      | some (_, e) =>
        if e.key.id ≠ c.id then (c, .ok)
        else
          let c := { c with
            value := if e.val.isDel then c.value else e.val
            src := c.src.map (skipKey rd db t e.key) }
          if e.val.isDel then forwardLoop f c
          else ({ c with key := some e.key, positioned := true }, anyRc c.src)

def curSize (c : Cur) : Nat := (c.src.map (srcSize (skEnv db t))).sum

def findForward (c : Cur) : Cur × Status :=
  forwardLoop rd db t (curSize db t c + 1) { c with positioned := false, forward := true }

def maxKey (l : List Src) : Option IKey :=
  l.foldl (fun best s =>
    if s.valid then
      let k := (srcEnt (skEnv db t) s).key
      match best with
      | none => some k
      | some b => if b < k then some k else some b
    else best) none

def newest (k : IKey) (l : List Src) : Option Ent :=
  l.foldl (fun best s =>
    if s.valid then
      let e := srcEnt (skEnv db t) s
      if e.key = k then
        match best with
        | none => some e
        | some b => if b.seq < e.seq then some e else some b
      else best
    else best) none

def backwardLoop : Nat → IKey → Cur → Cur × Status
  | 0, _, c => (c, .ok)
  | f + 1, lim, c =>
    let c := { c with src := c.src.map (fun s => srcSeekLt rd (skEnv db t) s lim .max) }
    let rc := anyRc c.src
    if rc ≠ .ok then (c, rc)
    else
      match maxKey db t c.src with
      | none => (c, .ok)
      | some k =>
        if k < ⟨c.id, []⟩ then (c, .ok)
        else
          let c := { c with src := c.src.map (fun s =>
            srcSeek rd (skEnv db t) s k (if s.priv then .max else .real t.snap)) }
          let rc := anyRc c.src
          match newest db t k c.src with
          | none => if rc ≠ .ok then (c, rc) else backwardLoop f k c
          | some e =>
            let c := { c with value := if e.val.isDel then c.value else e.val }
            if rc ≠ .ok then (c, rc)
            else if e.val.isDel then backwardLoop f k c
            else ({ c with key := some k, positioned := true }, .ok)

def findBackward (c : Cur) (lim : IKey) : Cur × Status :=
  backwardLoop rd db t (curSize db t c + 1) lim { c with positioned := false, forward := false }

def curLive (c : Cur) : Cur × Status :=
  let tr := t.tree c.tree
  if tr.mods ≠ c.mods ∨ tr.id ≠ c.id ∨ tr.id = 0 then (c, .invalidated)
  else if c.spills ≠ t.spills then
    let c := { c with src := txnSources t, spills := t.spills }
    let c := match c.key with
      | some k => allSeek rd db t c k (.real 0)
      | none => c
    ({ c with forward := true }, .ok)
  else (c, .ok)

def cursorOpen (tree : Bytes) : Txn × Status × Option Cur :=
  if db.failed then (t, .failed, none)
  else
    match treeFind rd db t tree with
    | (t, .ok, i) =>
      if (t.tree i).id = 0 then (t, .notFound, none)
      else ({ t with cursors := i :: t.cursors }, .ok,
        some ⟨i, (t.tree i).mods, (t.tree i).id, txnSources t, false, false, false, t.spills, none, .del⟩)
    | (t, rc, _) => (t, rc, none)

def moved (r : Cur × Status) : Cur × Status × Bool := (r.1, r.2, decide (r.2 = .ok) && r.1.positioned)

def seekExact (k : IKey) (r : Cur × Status) : Cur × Status :=
  if r.2 = .ok ∧ r.1.positioned ∧ r.1.key ≠ some k then ({ r.1 with positioned := false }, r.2) else r

/-- `lsm_seek`: a key longer than `GS_MAX_KEY + 1` answers at once. -/
def seek (c : Cur) (key : Bytes) (mode : SeekMode) : Cur × Status × Bool :=
  match curLive rd db t c with
  | (c, .ok) =>
    let c := { c with between := false }
    if GS_MAX_KEY + 1 < key.length then (c, .ok, false)
    else
      let k : IKey := ⟨c.id, key⟩
      match mode with
      | .ge => moved (findForward rd db t (allSeek rd db t c k .max))
      | .exact => moved (seekExact k (findForward rd db t (allSeek rd db t c k .max)))
      | .gt => moved (findForward rd db t (allSeek rd db t c k (.real 0)))
      | .le => moved (findBackward rd db t c ⟨c.id, key ++ [0]⟩)
      | .lt => moved (findBackward rd db t c k)
  | (c, rc) => (c, rc, false)

def first (c : Cur) : Cur × Status × Bool :=
  match curLive rd db t c with
  | (c, .ok) => moved (findForward rd db t (allSeek rd db t { c with between := false } ⟨c.id, []⟩ .max))
  | (c, rc) => (c, rc, false)

def last (c : Cur) : Cur × Status × Bool :=
  match curLive rd db t c with
  | (c, .ok) => moved (findBackward rd db t { c with between := false } ⟨c.id + 1, []⟩)
  | (c, rc) => (c, rc, false)

def Cur.at (c : Cur) : IKey := c.key.getD leastKey

def next (c : Cur) : Cur × Status × Bool :=
  match curLive rd db t c with
  | (c, .ok) =>
    if !c.positioned && !c.between then (c, .ok, false)
    else
      let c := { c with between := false }
      moved (findForward rd db t (if !c.forward then allSeek rd db t c c.at (.real 0) else c))
  | (c, rc) => (c, rc, false)

def prev (c : Cur) : Cur × Status × Bool :=
  match curLive rd db t c with
  | (c, .ok) =>
    if !c.positioned && !c.between then (c, .ok, false)
    else moved (findBackward rd db t { c with between := false } c.at)
  | (c, rc) => (c, rc, false)

def key (c : Cur) : Cur × Status × Option Bytes :=
  match curLive rd db t c with
  | (c, .ok) => if c.positioned then (c, .ok, some c.at.key) else (c, .notFound, none)
  | (c, rc) => (c, rc, none)

/-- `lsm_value`: a blob pointer is followed when asked. -/
def value (c : Cur) : Cur × Status × Option Val :=
  match curLive rd db t c with
  | (c, .ok) =>
    if c.positioned then
      let (rc, v) := valCopy rd db.refs.recs c.value
      (c, rc, if rc = .ok then v else none)
    else (c, .notFound, none)
  | (c, rc) => (c, rc, none)

/-- A change through a cursor: the buffer's entry, one modification more, and the sources past the key. -/
def cursorSet (c : Cur) (v : EVal) : Txn × Cur :=
  let t := (t.put c.at v).touch c.tree
  (t, { allSeek rd db t { c with mods := (t.tree c.tree).mods } c.at (.real 0) with forward := true })

def cursorPut (c : Cur) (v : Bytes) : Txn × Cur × Status :=
  if writable db t ≠ .ok then (t, c, writable db t)
  else
    match curLive rd db t c with
    | (c, .ok) =>
      if !c.positioned then (t, c, .notFound)
      else
        match undoNote rd db t c.at with
        | (t, .ok) =>
          let (t, c) := cursorSet rd db t { c with value := .put (.bytes v) } (.put (.bytes v))
          (t, c, .ok)
        | (t, rc) => (t, c, rc)
    | (c, rc) => (t, c, rc)

/-- `lsm_cursor_delete`: the cursor rests between the neighbours of the deleted key. -/
def cursorDelete (c : Cur) : Txn × Cur × Status :=
  if writable db t ≠ .ok then (t, c, writable db t)
  else
    match curLive rd db t c with
    | (c, .ok) =>
      if !c.positioned then (t, c, .notFound)
      else
        match undoNote rd db t c.at with
        | (t, .ok) =>
          let (t, c) := cursorSet rd db t c .del
          (t, { c with positioned := false, between := true }, .ok)
        | (t, rc) => (t, c, rc)
    | (c, rc) => (t, c, rc)

def cursorClose (c : Cur) : Txn := { t with cursors := t.cursors.erase c.tree }

def lastKeyOf (id : Nat) : Status × Option Bytes :=
  let c : Cur := ⟨0, 0, id, txnSources t, false, false, false, 0, none, .del⟩
  let (c, rc) := findBackward rd db t c ⟨id + 1, []⟩
  (rc, if rc = .ok ∧ c.positioned then c.key.map (·.key) else none)

/-- The names from a cursor on, until the caller takes no more: `stop` of them go before the last. -/
def namesFrom : Nat → Option Nat → Cur → Status × List Bytes
  | 0, _, _ => (.ok, [])
  | f + 1, stop, c =>
    match findForward rd db t c with
    | (c, .ok) =>
      if !c.positioned then (.ok, [])
      else if stop = some 0 then (.ok, [c.at.key])
      else
        let (rc, l) := namesFrom f (stop.map (· - 1)) c
        (rc, c.at.key :: l)
    | (_, rc) => (rc, [])

def treeList (stop : Option Nat) : Status × List Bytes :=
  if db.failed then (.failed, [])
  else
    let c : Cur := ⟨0, 0, CATALOG_ID, txnSources t, false, false, false, 0, none, .del⟩
    let c := allSeek rd db t c ⟨CATALOG_ID, []⟩ .max
    namesFrom rd db t (curSize db t c + 1) stop c

end

/-! ## Writes -/

structure PutFlags where
  noOverwrite : Bool
  append : Bool

def putRefuses (rd : Rd) (db : Store) (t : Txn) (i : Nat) (tree key : Bytes) (fl : PutFlags) : Txn × Status :=
  if !fl.noOverwrite && !fl.append then (t, .ok)
  else
    let (t, rc, _) := get rd db t tree key
    if rc = .ok ∧ fl.noOverwrite then (t, .exists)
    else if rc ≠ .ok ∧ rc ≠ .notFound then (t, rc)
    else if fl.append then
      if rc = .ok then (t, .order)
      else
        match lastKeyOf rd db t (t.tree i).id with
        | (.ok, some last) => if key ≤ last then (t, .order) else (t, .ok)
        | (rc, _) => (t, rc)
    else (t, .ok)

/-- A change to a tree's record: one modification more, and a spill if the buffer is past its bound. -/
def txnSet (rd : Rd) (db : Store) (t : Txn) (i : Nat) (key : Bytes) (v : EVal) : M (Store × Txn × Status) :=
  match bufPut rd db t ⟨(t.tree i).id, key⟩ v with
  | (t, .ok) => maybeSpill db (t.touch i)
  | (t, rc) => pure (db, { t with failed := rc }, rc)

def put (db : Store) (t : Txn) (tree key value : Bytes) (fl : PutFlags) : M (Store × Txn × Status) := do
  if writable db t ≠ .ok then return (db, t, writable db t)
  if GS_MAX_KEY < key.length then return (db, t, .tooLarge)
  let rd ← reads db
  let (t, rc, i) := treeFind rd db t tree
  if rc ≠ .ok then return (db, t, rc)
  if (t.tree i).id = 0 then return (db, t, .notFound)
  let (t, rc) := putRefuses rd db t i tree key fl
  if rc ≠ .ok then return (db, t, rc)
  txnSet rd db t i key (.put (.bytes value))

def del (db : Store) (t : Txn) (tree key : Bytes) : M (Store × Txn × Status) := do
  if writable db t ≠ .ok then return (db, t, writable db t)
  if GS_MAX_KEY < key.length then return (db, t, .tooLarge)
  let rd ← reads db
  let (t, rc, i) := treeFind rd db t tree
  if rc ≠ .ok then return (db, t, rc)
  if (t.tree i).id = 0 then return (db, t, .notFound)
  let (t, rc, _) := get rd db t tree key
  if rc ≠ .ok then return (db, t, rc)
  txnSet rd db t i key .del

/-! ## Savepoints -/

def savepoint (db : Store) (t : Txn) : Txn × Status :=
  if writable db t ≠ .ok then (t, writable db t)
  else ({ t with marks := ⟨t.undo.length, t.trees.map (·.id), t.retired.length⟩ :: t.marks }, .ok)

def undoFreeFrom (t : Txn) (i : Nat) : Txn :=
  { t with undo := t.undo.take i, undoBytes := t.undoBytes - ((t.undo.drop i).map UndoEnt.bytes).sum }

def markPop (t : Txn) : Txn :=
  let t := { t with marks := t.marks.tail }
  if t.marks.isEmpty then { undoFreeFrom t 0 with undoLost := false } else t

def undoBack (t : Txn) (l : List UndoEnt) : Txn :=
  l.reverse.foldl (fun t u => t.put u.key (match u.old with
    | some v => .put v
    | none => .del)) t

def rollbackSavepoint (db : Store) (t : Txn) : M (Store × Txn × Status) :=
  if writable db t ≠ .ok then pure (db, t, writable db t)
  else
    match t.marks with
    | [] => pure (db, t, .misuse)
    | m :: _ =>
      if t.undoLost then pure (db, markPop t, .tooLarge)
      else if t.cursors.any (fun i => m.ids.length ≤ i) then pure (db, t, .misuse)
      else
        let t := undoFreeFrom (undoBack t (t.undo.drop m.undoAt)) m.undoAt
        let t := { t with
          trees := (t.trees.zip m.ids).map (fun p => { p.1 with id := p.2, mods := p.1.mods + 1 })
          retired := t.retired.take m.nretired
          spills := t.spills + 1 }
        maybeSpill db (markPop t)

def releaseSavepoint (t : Txn) : Txn × Status :=
  if t.marks.isEmpty then (t, .misuse) else (markPop t, .ok)

end Lsm
end Gbasic
