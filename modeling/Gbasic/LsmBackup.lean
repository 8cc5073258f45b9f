import Gbasic.LsmOpen
/-!
# LsmBackup — a copy of a snapshot, in slices

The files of the snapshot's version are copied byte for byte, those an earlier copy holds under the same number, size
and header kept (`keepFile`); the memtables' view at the snapshot is written as one more level-0 file for each, under
numbers from `BACKUP_MEM_BASE` on; the manifest comes last.
-/
namespace Gbasic
namespace Lsm

def BACKUP_CHUNK : Nat := 2 ^ 20
def BACKUP_MEM_BASE : Nat := 2 ^ 62

structure CopyJob where
  kind : FKind
  num : Nat
  size : Option Nat
  off : Nat

structure MemNode where
  mem : Nat
  key : IKey
  seq : Seq

structure Backup where
  snap : Txn
  tmp : Store
  jobs : List CopyJob
  done : List CopyJob
  srcOpen : Bool
  b : Option Builder
  node : Option MemNode
  after : Option MemNode
  lastKey : Option IKey
  finished : Bool

def CopyJob.base (j : CopyJob) : Base :=
  match j.kind with
  | .sorted => .sst j.num
  | .blob => .blob j.num

def CopyJob.copied (j : CopyJob) : Bool := j.size = some j.off

def memHead (ms : Mems) (i : Nat) : Option MemNode := (ms.skip i).ents.head?.map (fun e => ⟨i, e.key, e.seq⟩)

def memNode (ms : Mems) (n : MemNode) : Ent :=
  ((ms.skip n.mem).ents.find? (fun e => e.pos = pos n.key n.seq)).getD noEnt

def memNext (ms : Mems) (n : MemNode) : Option MemNode :=
  (skNext (ms.skip n.mem) n.key n.seq).map (fun e => ⟨n.mem, e.key, e.seq⟩)

/-! ## Begin -/

def blobJobs (seen : List Nat) (m : FileMeta) : List CopyJob :=
  ((m.blobs.map (·.1)).filter (fun n => !seen.contains n)).dedup.map (fun n => ⟨.blob, n, none, 0⟩)

def copyJobs : List Nat → List FileMeta → List CopyJob
  | _, [] => []
  | seen, m :: l =>
    ⟨.sorted, m.num, some m.size, 0⟩ :: blobJobs seen m ++ copyJobs (seen ++ m.blobs.map (·.1)) l

/-- The store being built at `dest`: the snapshot's files, and the retirements it sees. -/
def backupStore (db : Store) (snap : Txn) (dest : Nat) : Store :=
  let t := storeNew dest ⟨db.cfg.block, db.cfg.memtableLimit, 0, db.cfg.vsep, 0, false⟩
  let cur := levels.foldl (fun v l => (snap.v.files l).foldl (fun v m => versionAdd v l m) v) t.cur
  { t with
    cfg := { db.cfg with dir := dest }
    nextFile := BACKUP_MEM_BASE + snap.snap
    log := { t.log with num := 1, first := 1 }
    lastSeq := snap.snap
    durableSeq := snap.snap
    cur := cur
    refs.held := [cur]
    refs.recs := snap.v.allFiles.map (fun m => (m.num, m.blobs.map (·.1)))
    dead := db.dead.filter (fun d => d.death ≤ snap.snap) }

def jobSize (db : Store) (j : CopyJob) : M (CopyJob × Status) :=
  match j.size with
  | some _ => pure (j, .ok)
  | none => do
    let a ← io (.size ⟨db.cfg.dir, j.base⟩)
    return ({ j with size := some a.size }, a.rc)

def keepSize (db : Store) (j : CopyJob) : M (CopyJob × Status) :=
  match j.size with
  | some _ => pure (j, .ok)
  | none => do
    let rc ← call (.open ⟨db.cfg.dir, j.base⟩ false false)
    if rc ≠ .ok then return (j, rc)
    jobSize db j

/-- `keep_file`: the copy holds a file of that name and size, with that database's, kind's and number's header. -/
def keepFile (db : Store) (dest : Nat) (j : CopyJob) : M (CopyJob × Bool × Status) := do
  let (j, rc) ← keepSize db j
  if rc ≠ .ok then return (j, false, rc)
  let rc ← call (.open ⟨dest, j.base⟩ false false)
  if rc ≠ .ok then return (j, false, .ok)
  let s ← io (.size ⟨dest, j.base⟩)
  let h ← io (.read ⟨dest, j.base⟩)
  let keep := s.rc = .ok ∧ some s.size = j.size ∧ FHDR ≤ s.size ∧ h.rc = .ok ∧
    readPart h.file 0 = some (.fhdr j.kind j.num db.cfg.identity)
  return (j, decide keep, .ok)

def keepFiles (db : Store) (dest : Nat) : List CopyJob → M (List CopyJob × Status)
  | [] => return ([], .ok)
  | j :: l => do
    let (j, keep, rc) ← keepFile db dest j
    if rc ≠ .ok then return (j :: l, rc)
    let j := if keep then { j with off := j.size.getD 0 } else j
    let (l, rc) ← keepFiles db dest l
    return (j :: l, rc)

/-- `backup_prepare`: the manifest goes first, then every file that is not kept. -/
def backupPrepare (db : Store) (b : Backup) : M (Backup × Status) := do
  let dest := b.tmp.cfg.dir
  let _ ← call (.remove b.tmp.path)
  let rc ← call (.syncDir dest .copy)
  if rc ≠ .ok then return (b, rc)
  let (jobs, rc) ← keepFiles db dest b.jobs
  let b := { b with jobs := jobs }
  if rc ≠ .ok then return (b, rc)
  let a ← io (.list dest)
  if a.rc ≠ .ok then return (b, a.rc)
  removeNames dest (a.names.filter (fun n => !jobs.any (fun j => j.copied && j.base = n)))
  let rc ← call (.syncDir dest .copy)
  return (b, rc)

def backupBegin (db : Store) (snap : Txn) (dest : Nat) : M (Option Backup × Status) := do
  if snap.write then return (none, .misuse)
  if db.failed then return (none, .failed)
  -- the lock of the live database is its owner's
  if dest = db.cfg.dir then return (none, .busy)
  let head := memHead db.mems snap.v.mem
  let b : Backup := {
    snap := snap
    tmp := backupStore db snap dest
    jobs := copyJobs [] snap.v.allFiles
    done := []
    srcOpen := false
    b := none
    node := match snap.v.imm with
      | some i => memHead db.mems i
      | none => head
    after := match snap.v.imm with
      | some _ => head
      | none => none
    lastKey := none
    finished := false }
  let (b, rc) ← backupPrepare db b
  return (some b, rc)

/-! ## A step -/

def copyChunks (db : Store) (dest : Nat) (budget : Option Nat) (size : Nat) :
    Nat → CopyJob → Nat → M (CopyJob × Nat × Status)
  | 0, j, spent => return (j, spent, .ok)
  | f + 1, j, spent => do
    if size ≤ j.off ∨ !within budget spent then return (j, spent, .ok)
    let want := min (size - j.off) BACKUP_CHUNK
    let want := match budget with
      | none => want
      | some n => min want (n - spent)
    let a ← io (.read ⟨db.cfg.dir, j.base⟩)
    if a.rc ≠ .ok then return (j, spent, a.rc)
    if a.file.size < j.off + want then return (j, spent, .corrupt)
    let rc ← call (.write ⟨dest, j.base⟩ j.off want (fun i => a.file.cell (j.off + i)))
    if rc ≠ .ok then return (j, spent, rc)
    copyChunks db dest budget size f { j with off := j.off + want } (spent + want)

def copyOpen (db : Store) (bk : Backup) (j : CopyJob) : M (Backup × CopyJob × Status) := do
  if bk.srcOpen then return (bk, j, .ok)
  let rc ← call (.open ⟨db.cfg.dir, j.base⟩ false false)
  if rc ≠ .ok then return (bk, j, rc)
  let bk := { bk with srcOpen := true }
  let (j, rc) ← jobSize db j
  if rc ≠ .ok then return (bk, j, rc)
  let _ ← call (.remove ⟨bk.tmp.cfg.dir, j.base⟩)
  let rc ← call (.open ⟨bk.tmp.cfg.dir, j.base⟩ true true)
  return (bk, j, rc)

def copyFiles (db : Store) (budget : Option Nat) : List CopyJob → Backup → Nat → M (Backup × Nat × Status)
  | [], bk, spent => return ({ bk with jobs := [] }, spent, .ok)
  | j :: l, bk, spent => do
    let bk := { bk with jobs := j :: l }
    if !within budget spent then return (bk, spent, .ok)
    if !bk.srcOpen && j.copied then copyFiles db budget l { bk with done := bk.done ++ [j] } spent
    else
      let (bk, j, rc) ← copyOpen db bk j
      let bk := { bk with jobs := j :: l }
      if rc ≠ .ok then return (bk, spent, rc)
      let size := j.size.getD 0
      let (j, spent, rc) ← copyChunks db bk.tmp.cfg.dir budget size (size - j.off + 1) j spent
      let bk := { bk with jobs := j :: l }
      if rc ≠ .ok then return (bk, spent, rc)
      let rc ← call (.sync ⟨bk.tmp.cfg.dir, j.base⟩)
      if rc ≠ .ok then return (bk, spent, rc)
      if j.off < size then return (bk, spent, .ok)
      copyFiles db budget l { bk with srcOpen := false, done := bk.done ++ [j] } spent

def memBuilder (bk : Backup) : M (Store × Builder) :=
  match bk.b with
  | some b => pure (bk.tmp, b)
  | none => bldOpen bk.tmp

/-- A memtable's entry into the copy's file, unless it is newer than the snapshot or its key's newest is in. -/
def memEmit (bk : Backup) (e : Ent) : M (Backup × Nat × Status) := do
  if .real bk.snap.snap < e.seq ∨ bk.lastKey = some e.key then return (bk, 0, .ok)
  let bk := { bk with lastKey := some e.key }
  let (tmp, b) ← memBuilder bk
  if bk.b.isNone ∧ b.rc ≠ .ok then return ({ bk with tmp := tmp }, 0, b.rc)
  let (tmp, b) ← bldAdd tmp b e
  return ({ bk with tmp := tmp, b := some b }, e.work, b.rc)

def memWalk (ms : Mems) (budget : Option Nat) : Nat → Backup → Nat → M (Backup × Nat × Status)
  | 0, bk, spent => return (bk, spent, .ok)
  | f + 1, bk, spent => do
    match bk.node with
    | none => return (bk, spent, .ok)
    | some n =>
      if !within budget spent then return (bk, spent, .ok)
      let (bk, w, rc) ← memEmit { bk with node := memNext ms n } (memNode ms n)
      if rc ≠ .ok then return (bk, spent, rc)
      memWalk ms budget f bk (spent + w)

def memClose (bk : Backup) : M (Backup × Status) := do
  match bk.b with
  | none => return (bk, .ok)
  | some b =>
    let (tmp, fm, rc) ← bldClose bk.tmp b
    let bk := { bk with b := none, tmp := tmp }
    if rc ≠ .ok then return (bk, rc)
    match fm with
    | none => return (bk, .ok)
    | some m => return ({ bk with tmp := { tmp with cur := versionAdd tmp.cur 0 m } }, .ok)

def copyMems (ms : Mems) (budget : Option Nat) : Nat → Backup → Nat → M (Backup × Bool × Status)
  | 0, bk, _ => return (bk, true, .ok)
  | f + 1, bk, spent => do
    let size := (bk.node.map (fun n => (ms.skip n.mem).ents.length)).getD 0
    let (bk, spent, rc) ← memWalk ms budget (size + 1) bk spent
    if rc ≠ .ok then return (bk, false, rc)
    if bk.node.isSome then return (bk, false, .ok)
    let (bk, rc) ← memClose bk
    if rc ≠ .ok then return (bk, false, rc)
    match bk.after with
    | none => return (bk, true, .ok)
    | some n => copyMems ms budget f { bk with node := some n, after := none, lastKey := none } spent

def copyFinish (bk : Backup) : M (Backup × Status) := do
  let n := bk.tmp.logName 1
  let _ ← call (.remove n)
  let rc ← call (.open n true false)
  if rc ≠ .ok then return (bk, rc)
  let rc ← call (.sync n)
  if rc ≠ .ok then return (bk, rc)
  let (tmp, rc) ← manifestWrite bk.tmp
  return ({ bk with tmp := tmp, finished := decide (rc = .ok) }, rc)

def backupStep (db : Store) (bk : Backup) (budget : Option Nat) : M (Backup × Status) := do
  if bk.finished then return (bk, .ok)
  if db.failed then return (bk, .failed)
  let (bk, spent, rc) ← copyFiles db budget bk.jobs bk 0
  if rc ≠ .ok then return (bk, rc)
  if bk.jobs ≠ [] then return (bk, .ok)
  let (bk, all, rc) ← copyMems db.mems budget 2 bk spent
  if rc ≠ .ok ∨ !all then return (bk, rc)
  copyFinish bk

/-! ## Check -/

def pairsHold {α : Type} (p : α → α → Bool) (l : List α) : Bool := (l.zip l.tail).all (fun x => p x.1 x.2)

def fileEnts (m : FileMeta) : List Ent := m.body.blocks.flatMap (·.2)

def countedBytes (l : List Ent) (num : Nat) : Nat :=
  (l.map (fun e => match e.val with
    | .blob p => if p.num = num then BLOB_REC p.val.len else 0
    | _ => 0)).sum

/-- An entry is in the bloom filter and, pointing into a blob file, into one the file lists, and reads back. -/
def entSound (rd : Rd) (recs : List (Nat × List Nat)) (m : FileMeta) (e : Ent) : Bool :=
  bloomMay m.body.bloom e.key &&
    match e.val with
    | .blob p => m.blobs.any (fun b => b.1 = p.num) && (valCopy rd recs e.val).1 == .ok
    | _ => true

/-- A file opens, each block reads back and ends in its index entry, and its counts are those of its entries. -/
def fileSound (rd : Rd) (recs : List (Nat × List Nat)) (m : FileMeta) : Bool :=
  m.body.opens == .ok &&
    (List.range m.body.index.length).all (fun bi =>
      let (rc, l) := blockFetch rd m bi
      let ie := m.body.index.getD bi noIdx
      rc == .ok && l.getLast?.all (fun e => e.pos = pos ie.last ie.lastSeq)) &&
    (fileEnts m).all (entSound rd recs m) && pairsHold (fun a b => a.pos < b.pos) (fileEnts m) &&
    (fileEnts m).length == m.entries &&
    m.blobs.all (fun b => b.2 ≠ 0 && countedBytes (fileEnts m) b.1 == b.2)

def levelSound (rd : Rd) (db : Store) (l : Nat) : Bool :=
  (db.cur.files l).all (fileSound rd db.refs.recs) &&
    (l == 0 || pairsHold (fun a b => a.largest < b.smallest) (db.cur.files l))

/-- A name nothing accounts for.  `garbage` are the obsolete numbers not yet known deleted. -/
def stray (db : Store) (garbage : List Nat) (b : Base) : Bool :=
  let taken := garbage ++ (db.comp.map (·.pending)).getD [] ++ (db.fl.map (·.pending)).getD []
  !named db b &&
    match b with
    | .sst n | .blob n => !taken.contains n
    | _ => true

def check (db : Store) (garbage : List Nat) : M Status := do
  let rd ← reads db
  let a ← io (.list db.cfg.dir)
  let sound := levels.all (levelSound rd db) && a.rc == .ok && !a.names.any (stray db garbage)
  return if sound then .ok else .corrupt

/-! ## Counts -/

def skTreeCount (s : Skip) (id : Nat) : Nat := (s.ents.filter (fun e => e.key.id = id)).length

/-- Blocks of a file that are a tree's, in halves: one wholly inside it is two, one at either end of it one. -/
def blockHalves (id : Nat) : Nat → List IdxEntry → Nat
  | _, [] => 0
  | prev, e :: l =>
    (if prev = id ∧ e.last.id = id then 2 else if prev ≤ id ∧ id ≤ e.last.id then 1 else 0) +
      blockHalves id e.last.id l

def fileShare (id : Nat) (m : FileMeta) : Nat :=
  if id < m.smallest.id ∨ m.largest.id < id then 0
  else if m.smallest.id = id ∧ m.largest.id = id then m.entries
  else if m.body.opens ≠ .ok then 0
  else m.entries * blockHalves id m.smallest.id m.body.index / (2 * m.body.index.length)

def estimate (rd : Rd) (db : Store) (t : Txn) (tree : Bytes) : Txn × Status × Nat :=
  if db.failed then (t, .failed, 0)
  else
    match treeFind rd db t tree with
    | (t, .ok, i) =>
      let id := (t.tree i).id
      if id = 0 then (t, .notFound, 0)
      else (t, .ok, ((t.v.mem :: t.v.imm.toList).map (fun i => skTreeCount (db.mems.skip i) id)).sum +
        (t.v.allFiles.map (fileShare id)).sum)
    | (t, rc, _) => (t, rc, 0)

def txnId (db : Store) (t : Txn) : Status × Nat := if t.write then (.ok, db.lastSeq + 1) else (.misuse, 0)

end Lsm
end Gbasic
