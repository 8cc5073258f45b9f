import Gbasic.LsmFlush
/-!
# LsmTxn — transactions: their view, their buffer, and the trees

A transaction reads the version it began with at its snapshot; a write transaction puts its own buffer and spilled runs
before it (`txnSources`, `lookup`).  Trees are entries of the catalog, each name once looked up kept with its id
(`treeFind`).  A buffer past half the cache is spilled to one run for each tree (`spillBuffer`).
-/
namespace Gbasic
namespace Lsm

structure TreeRef where
  name : Bytes
  id : Nat
  mods : Nat
  deriving DecidableEq

structure UndoEnt where
  key : IKey
  old : Option Val

structure SpMark where
  undoAt : Nat
  ids : List Nat
  nretired : Nat

/-- A transaction.  `cursors` are the trees its open cursors are on. -/
structure Txn where
  write : Bool
  snap : Nat
  v : Version
  buf : Skip
  retired : List Nat
  trees : List TreeRef
  cursors : List Nat
  nextId : Nat
  failed : Status
  runs : List FileMeta
  spills : Nat
  undo : List UndoEnt
  undoBytes : Nat
  undoLost : Bool
  marks : List SpMark

def txnNew (write : Bool) (snap : Nat) (v : Version) : Txn :=
  ⟨write, snap, v, skInit, [], [], [], 0, .ok, [], 0, [], 0, false, []⟩

/-! ## The view -/

def skEnv (db : Store) (t : Txn) : SkRef → Skip
  | .buf => t.buf
  | .mem i => db.mems.skip i

def txnSources (t : Txn) : List Src :=
  (if t.write then Src.ofSkip .buf true :: t.runs.reverse.map (fun m => Src.ofFiles [m] true) else []) ++
  (t.v.mem :: t.v.imm.toList).map (fun i => Src.ofSkip (.mem i) false) ++
  (t.v.files 0).reverse.map (fun m => Src.ofFiles [m] false) ++
  ((levels.filter (fun l => 0 < l && !(t.v.files l).isEmpty)).map (fun l => Src.ofFiles (t.v.files l) false))

def lookup (rd : Rd) (db : Store) (t : Txn) (k : IKey) : Found :=
  firstFound (
    (if t.write then skLookup t.buf k .max :: t.runs.reverse.map (fun m => fileLookup rd db.refs.recs m k .max)
      else []) ++
    [memsLookup db.mems t.v k (.real t.snap), filesLookup rd db.refs.recs t.v k (.real t.snap)])

/-- A lookup's status and value: NOT_FOUND if absent or deleted. -/
def Found.answer : Found → Status × Option Val
  | .error rc => (rc, none)
  | .absent => (.notFound, none)
  | .found none => (.notFound, none)
  | .found (some v) => (.ok, some v)

/-! ## Trees -/

def catKey (name : Bytes) : IKey := ⟨CATALOG_ID, name⟩

/-- `tree_find`: the name's place in the transaction's list, looked up in the catalog the first time. -/
def treeFind (rd : Rd) (db : Store) (t : Txn) (name : Bytes) : Txn × Status × Nat :=
  match t.trees.findIdx? (fun tr => tr.name = name) with
  | some i => (t, .ok, i)
  | none =>
    if GS_MAX_KEY < name.length then (t, .tooLarge, 0)
    else
      let add (id : Nat) : Txn × Status × Nat :=
        ({ t with trees := t.trees ++ [⟨name, id, 0⟩] }, .ok, t.trees.length)
      match (lookup rd db t (catKey name)).answer with
      | (.ok, some (.id64 id)) => add id
      | (.ok, _) => (t, .corrupt, 0)
      | (.notFound, _) => add 0
      | (rc, _) => (t, rc, 0)

def noTree : TreeRef := ⟨[], 0, 0⟩

def Txn.tree (t : Txn) (i : Nat) : TreeRef := t.trees.getD i noTree

def Txn.setTree (t : Txn) (i id : Nat) : Txn :=
  { t with trees := t.trees.set i { t.tree i with id := id, mods := (t.tree i).mods + 1 } }

def Txn.touch (t : Txn) (i : Nat) : Txn := t.setTree i (t.tree i).id

/-! ## Before-images -/

def UNDO_ENT : Nat := 40

def undoLimit (db : Store) : Nat := max (db.cfg.cacheBytes * 4) (4 * 2 ^ 20)

def UndoEnt.bytes (u : UndoEnt) : Nat := u.key.len + (u.old.map Val.len).getD 0 + UNDO_ENT

def undoNote (rd : Rd) (db : Store) (t : Txn) (k : IKey) : Txn × Status :=
  if t.marks.isEmpty || t.undoLost then (t, .ok)
  else
    match (lookup rd db t k).answer with
    | (rc, old) =>
      if rc ≠ .ok ∧ rc ≠ .notFound then (t, rc)
      else
        let u : UndoEnt := ⟨k, old⟩
        let t := { t with undo := t.undo ++ [u], undoBytes := t.undoBytes + u.bytes }
        if undoLimit db < t.undoBytes then ({ t with undo := [], undoBytes := 0, undoLost := true }, .ok)
        else (t, .ok)

/-! ## The buffer -/

/-- An entry into the buffer, in place of the one the key had. -/
def Txn.put (t : Txn) (k : IKey) (v : EVal) : Txn := { t with buf := skInsert t.buf ⟨k, .max, v⟩ true }

def bufPut (rd : Rd) (db : Store) (t : Txn) (k : IKey) (v : EVal) : Txn × Status :=
  match undoNote rd db t k with
  | (t, .ok) => (t.put k v, .ok)
  | (t, rc) => (t, rc)

def runAdd (db : Store) (t : Txn) (b : Builder) : M (Store × Txn × Status) := do
  let (db, fm, rc) ← bldClose db b
  match fm with
  | none => return (db, t, rc)
  | some m => return (db, { t with runs := t.runs ++ [{ m with seqOver := some (.run t.runs.length) }] }, rc)

def spillTurn (db : Store) (t : Txn) (cur : Option (Builder × Nat)) (id : Nat) :
    M (Store × Txn × Option (Builder × Nat) × Status) :=
  match cur with
  | none => pure (db, t, none, .ok)
  | some (b, tree) =>
    if id = tree then pure (db, t, some (b, tree), .ok)
    else do
      let (db, t, rc) ← runAdd db t b
      return (db, t, none, rc)

def spillOutput (db : Store) (cur : Option (Builder × Nat)) (id : Nat) : M (Store × Builder × Nat) :=
  match cur with
  | some (b, tree) => pure (db, b, tree)
  | none => do
    let (db, b) ← bldOpen db
    return (db, b, id)

def spillLoop : List Ent → Store → Txn → Option (Builder × Nat) → M (Store × Txn × Option Builder × Status)
  | [], db, t, cur => return (db, t, cur.map (·.1), .ok)
  | e :: l, db, t, cur => do
    let (db, t, cur, rc) ← spillTurn db t cur e.key.id
    if rc ≠ .ok then return (db, t, none, rc)
    let (db, b, tree) ← spillOutput db cur e.key.id
    if cur.isNone ∧ b.rc ≠ .ok then return (db, t, none, b.rc)
    let (db, b) ← bldAdd db b { e with seq := .real 0 }
    if b.rc ≠ .ok then return (db, t, some b, b.rc)
    spillLoop l db t (some (b, tree))

def spillLast (db : Store) (t : Txn) (cur : Option Builder) (rc : Status) : M (Store × Txn × Status) :=
  match cur with
  | none => pure (db, t, rc)
  | some b =>
    if rc = .ok then runAdd db t b
    else do
      let (db, fm, _) ← bldClose db b
      let db ← filesFree db fm.toList
      return (db, t, rc)

def spillBuffer (db : Store) (t : Txn) : M (Store × Txn × Status) := do
  if t.buf.count = 0 then return (db, t, .ok)
  let (db, t, cur, rc) ← spillLoop t.buf.ents db t none
  let (db, t, rc) ← spillLast db t cur rc
  if rc ≠ .ok then return (db, t, rc)
  return (db, { t with buf := skInit, spills := t.spills + 1 }, .ok)

def maybeSpill (db : Store) (t : Txn) : M (Store × Txn × Status) := do
  if t.buf.bytes ≤ db.cfg.cacheBytes / 2 then return (db, t, .ok)
  let (db, t, rc) ← spillBuffer db t
  if rc ≠ .ok then return (db, { t with failed := rc }, rc)
  return (db, t, .ok)

/-! ## Tree ids -/

def srcSize (sk : SkRef → Skip) (s : Src) : Nat :=
  match s.sk with
  | some r => (sk r).ents.length
  | none => (s.files.map (fun m => (m.body.blocks.map (·.2.length)).sum)).sum

def srcWhile (rd : Rd) (sk : SkRef → Skip) (p : Ent → Bool) : Nat → Src → Src
  | 0, s => s
  | f + 1, s => if s.valid && p (srcEnt sk s) then srcWhile rd sk p f (srcNext rd sk s) else s

def catalogIds (rd : Rd) (sk : SkRef → Skip) : Nat → Src → List Nat
  | 0, _ => []
  | f + 1, s =>
    if s.valid then
      let e := srcEnt sk s
      if e.key.id ≠ CATALOG_ID then []
      else
        let rest := catalogIds rd sk f (srcNext rd sk s)
        match e.val with
        | .put (.id64 id) => id :: rest
        | _ => rest
    else []

def computeNextId (rd : Rd) (db : Store) (t : Txn) : Txn :=
  if t.nextId ≠ 0 then t
  else
    let sk := skEnv db t
    let held := (txnSources t).flatMap (fun s =>
      let s := srcSeek rd sk s ⟨CATALOG_ID, []⟩ .max
      catalogIds rd sk (srcSize sk s + 1) s)
    let best := (db.dead.map (·.id) ++ held ++ t.trees.map (·.id)).foldl max (FIRST_TREE_ID - 1)
    { t with nextId := best + 1 }

def catalogSet (rd : Rd) (db : Store) (t : Txn) (name : Bytes) (id : Nat) : Txn × Status :=
  bufPut rd db t (catKey name) (if id ≠ 0 then .put (.id64 id) else .del)

def writable (db : Store) (t : Txn) : Status :=
  if db.failed then .failed else if !t.write then .readOnly else t.failed

def treeCreate (rd : Rd) (db : Store) (t : Txn) (name : Bytes) : Txn × Status :=
  if writable db t ≠ .ok then (t, writable db t)
  else
    match treeFind rd db t name with
    | (t, .ok, i) =>
      if (t.tree i).id ≠ 0 then (t, .exists)
      else
        let t := computeNextId rd db t
        let id := t.nextId
        match catalogSet rd db { t with nextId := id + 1 } name id with
        | (t, .ok) => (t.setTree i id, .ok)
        | (t, rc) => (t, rc)
    | (t, rc, _) => (t, rc)

def treeDrop (rd : Rd) (db : Store) (t : Txn) (name : Bytes) : Txn × Status :=
  if writable db t ≠ .ok then (t, writable db t)
  else
    match treeFind rd db t name with
    | (t, .ok, i) =>
      if (t.tree i).id = 0 then (t, .notFound)
      else
        match catalogSet rd db t name 0 with
        | (t, .ok) => ({ t with retired := t.retired ++ [(t.tree i).id] }.setTree i 0, .ok)
        | (t, rc) => (t, rc)
    | (t, rc, _) => (t, rc)

def treeReplace (rd : Rd) (db : Store) (t : Txn) (target source : Bytes) : Txn × Status :=
  if writable db t ≠ .ok then (t, writable db t)
  else if target = source then (t, .misuse)
  else
    match treeFind rd db t target with
    | (t, .ok, ti) =>
      match treeFind rd db t source with
      | (t, .ok, si) =>
        if (t.tree si).id = 0 then (t, .notFound)
        else
          let t := if (t.tree ti).id ≠ 0 then { t with retired := t.retired ++ [(t.tree ti).id] } else t
          let id := (t.tree si).id
          match catalogSet rd db t target id with
          | (t, .ok) =>
            match catalogSet rd db t source 0 with
            | (t, .ok) => ((t.setTree ti id).setTree si 0, .ok)
            | (t, rc) => (t, rc)
          | (t, rc) => (t, rc)
      | (t, rc, _) => (t, rc)
    | (t, rc, _) => (t, rc)

/-! ## Reading -/

def get (rd : Rd) (db : Store) (t : Txn) (tree key : Bytes) : Txn × Status × Option Val :=
  if db.failed then (t, .failed, none)
  else
    match treeFind rd db t tree with
    | (t, .ok, i) =>
      if (t.tree i).id = 0 then (t, .notFound, none)
      else if GS_MAX_KEY < key.length then (t, .notFound, none)
      else (t, (lookup rd db t ⟨(t.tree i).id, key⟩).answer)
    | (t, rc, _) => (t, rc, none)

end Lsm
end Gbasic
