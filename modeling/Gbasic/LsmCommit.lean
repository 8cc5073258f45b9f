import Gbasic.LsmCursor
/-!
# LsmCommit — begin, commit, abort, sync and flush

A commit is one log record, applied to the memtable once it is written (`commitRecord`), and then pays its share of the
flush, the spare log and the compaction (`commitWork`).  A transaction that spilled commits by naming its runs in one
manifest (`commitRuns`).
-/
namespace Gbasic
namespace Lsm

def readFlush (db : Store) : M Store := do
  if db.fl.isNone ∨ db.users.writer then return db
  let idle := if db.users.readSeen = db.lastSeq then db.users.readIdle + 1 else 0
  let db := { db with users.readIdle := idle, users.readSeen := db.lastSeq }
  if idle < READ_IDLE then return db
  let (db, _) ← flushStep db (some READ_FLUSH_SLICE)
  return db

def beginRead (db : Store) : M (Store × Status × Option Txn) := do
  if db.failed then return (db, .failed, none)
  let db ← readFlush db
  return ({ db with users.nsnaps := db.users.nsnaps + 1, refs.held := db.cur :: db.refs.held }, .ok,
    some (txnNew false db.durableSeq db.cur))

/-- `lsm_begin_write`: a lease that another machine has taken (`fenced`) is asked about before the flag is. -/
def beginWrite (fenced : Bool) (db : Store) : Store × Status × Option Txn :=
  if fenced then (db, .fenced, none)
  else if db.failed then (db, .failed, none)
  else if db.users.writer then (db, .busy, none)
  else
    ({ db with users.nsnaps := db.users.nsnaps + 1, users.writer := true, refs.held := db.cur :: db.refs.held }, .ok,
      some (txnNew true db.lastSeq db.cur))

def runsFree (db : Store) : List FileMeta → M Store
  | [] => return db
  | m :: l => do
    let _ ← call (.remove (db.sstName m.num))
    let db ← fileFree { db with refs.obsolete := m.num :: db.refs.obsolete } m
    runsFree db l

def txnFree (db : Store) (t : Txn) : M Store := do
  let db ← runsFree db t.runs
  versionUnref { db with users.nsnaps := db.users.nsnaps - 1 } t.v

def abort (db : Store) (t : Txn) : M Store :=
  txnFree (if t.write then { db with users.writer := false } else db) t

def deadAdd (dead : List Dead) (id death : Nat) : List Dead :=
  if dead.any (fun d => d.id = id) then dead else dead ++ [⟨id, death⟩]

def deadAddAll (dead : List Dead) (ids : List Nat) (death : Nat) : List Dead :=
  ids.foldl (fun dead id => deadAdd dead id death) dead

def fullOrIo (rc : Status) : Status := if rc = .full then .full else .io

def ioOrFailed (db : Store) (rc : Status) : Bool := rc = .io || db.failed

/-! ## A transaction that spilled -/

def runFiles (base : Nat) : Nat → List FileMeta → List FileMeta
  | _, [] => []
  | r, m :: l => { m with seqOver := some (.real (base + r)) } :: runFiles base (r + 1) l

def runsState (db : Store) (t : Txn) (nv : Version) : Store :=
  let commit := db.lastSeq + t.runs.length
  { db with
    dead := deadAddAll db.dead t.retired commit
    pace.sweep := !t.retired.isEmpty || db.pace.sweep
    cur := nv
    lastSeq := commit
    durableSeq := commit }

def commitRunsName (db : Store) (t : Txn) : M (Store × Status) := do
  let before := db
  let (db, nv) := versionCopy db db.cur
  let nv := (runFiles (db.lastSeq + 1) 0 t.runs).foldl (fun v m => versionAdd v 0 m) nv
  let (db, rc) ← manifestWrite (runsState db t nv)
  if rc ≠ .ok then
    let db := { db with
      cur := before.cur
      lastSeq := before.lastSeq
      durableSeq := before.durableSeq
      dead := before.dead
      refs.obsolete := t.runs.map (·.num) ++ db.refs.obsolete }
    let db ← filesDrop db nv.allFiles
    let db ← abort db { t with runs := [] }
    return (db, fullOrIo rc)
  let db ← versionUnref { db with refs.held := nv :: db.refs.held } before.cur
  return (db, .ok)

def commitRunsReady (db : Store) (t : Txn) : M (Store × Txn × Status) := do
  let (db, rc) ← flushMemtable db
  if rc ≠ .ok then return (db, t, rc)
  spillBuffer db t

/-- `commit_runs`: the memtable flushed first, the rest of the buffer the last run, and the manifest the commit. -/
def commitRuns (db : Store) (t : Txn) : M (Store × Status) := do
  let (db, t, rc) ← commitRunsReady db t
  if rc ≠ .ok then
    let db ← abort db t
    return (db, fullOrIo rc)
  let (db, rc) ← commitRunsName db t
  if rc ≠ .ok then return (db, rc)
  let db ← abort db { t with runs := [] }
  let (db, rc) ← maybeCompact db ((t.runs.map (·.size)).sum)
  if ioOrFailed db rc then return (db, .io)
  return (db, .ok)

/-! ## A transaction in the log -/

def txnRecord (db : Store) (t : Txn) : LogRec :=
  ⟨db.log.prev, db.log.salt, db.lastSeq + 1, t.buf.ents.map (fun e => (e.key, e.val)), t.retired⟩

def logRoom (db : Store) (need : Nat) : M (Store × Status) := do
  if db.log.stop + need ≤ db.log.filled then return (db, .ok)
  let stop := db.log.stop + need + logStep db
  let rc ← zeroFill (db.logName db.log.num) (stop + 1) db.log.filled stop
  if rc ≠ .ok then return (db, rc)
  return ({ db with log.filled := stop }, .ok)

def commitWrite (db : Store) (r : LogRec) (sync : Bool) : M (Store × Status) := do
  let (db, rc) ← logRoom db (recordSize r)
  if rc ≠ .ok then return (db, rc)
  let rc ← writePart (db.logName db.log.num) db.log.stop (.record r)
  if rc ≠ .ok then return (db, rc)
  if sync then flushFile db (db.logName db.log.num) else return (db, .ok)

def memApply (s : Skip) : Nat → List (IKey × EVal) → Skip
  | _, [] => s
  | seq, e :: l => memApply (skInsert s ⟨e.1, .real seq, e.2⟩ false) (seq + 1) l

def commitApply (db : Store) (r : LogRec) (sync : Bool) : Store :=
  { db with
    log := { db.log with stop := db.log.stop + recordSize r, prev := r.link }
    mems := db.mems.set db.cur.mem (memApply db.mem r.base r.ents)
    dead := deadAddAll db.dead r.retired r.commit
    pace.sweep := !r.retired.isEmpty || db.pace.sweep
    lastSeq := r.commit
    durableSeq := if sync then r.commit else db.durableSeq }

def commitFreeze (db : Store) : M (Store × Status) := do
  if db.mem.bytes < db.cfg.memtableLimit then return (db, .ok)
  let (db, rc) ← flushStep db none
  if rc ≠ .ok then return (db, rc)
  freeze db

def commitSpare (db : Store) (wrote : Nat) (rc : Status) : M (Store × Status) :=
  if db.fl.isNone then spareStep db (some (wrote * SPARE_CREDIT)) else pure (db, rc)

def commitWork (db : Store) (wrote : Nat) : M (Store × Status) := do
  let (db, rc) ← commitFreeze db
  if ioOrFailed db rc then return (db, .io)
  let (db, rc) ← flushStep db (some (wrote * FLUSH_CREDIT))
  if ioOrFailed db rc then return (db, .io)
  let (db, rc) ← commitSpare db wrote rc
  if ioOrFailed db rc then return (db, .io)
  let (db, rc) ← maybeCompact db wrote
  if ioOrFailed db rc then return (db, .io)
  return (db, .ok)

/-- `lsm_commit` of a transaction that did not spill. -/
def commitRecord (db : Store) (t : Txn) (sync : Bool) : M (Store × Status) := do
  let r := txnRecord db t
  let (db, rc) ← commitWrite db r sync
  if rc ≠ .ok then
    let db ← abort db t
    return (db, if rc = .full ∨ rc = .fenced then rc else .io)
  let db ← abort (commitApply db r sync) t
  commitWork db (recordSize r - (LOG_PRE - 8))

def commit (db : Store) (t : Txn) (sync : Bool) : M (Store × Status) := do
  if !t.write then return (db, .misuse)
  if db.failed then
    let db ← abort db t
    return (db, .failed)
  if t.failed ≠ .ok then
    let db ← abort db t
    return (db, t.failed)
  if t.runs ≠ [] then commitRuns db t else commitRecord db t sync

/-! ## Sync, flush, close -/

def sync (db : Store) : M (Store × Status) := do
  if db.failed then return (db, .failed)
  if db.durableSeq = db.lastSeq then return (db, .ok)
  let (db, rc) ← flushFile db (db.logName db.log.num)
  if rc ≠ .ok then return (db, rc)
  return ({ db with durableSeq := db.lastSeq }, .ok)

def spareNow (db : Store) : M (Store × Status) := do
  if db.spare.ready then return (db, .ok)
  let (db, rc) ← spareOpen db
  if rc ≠ .ok then return (db, rc)
  let (db, rc) ← flushFile db (db.logName (db.log.num + 1))
  if rc ≠ .ok then return (db, rc)
  let rc ← call (.syncDir db.cfg.dir .spare)
  if rc ≠ .ok then return (db, rc)
  return ({ db with spare.ready := true }, .ok)

def flushFreeze (db : Store) : M (Store × Bool × Status) := do
  if db.mem.count = 0 then return (db, false, .ok)
  let short := !db.spare.ready
  let (db, rc) ← spareNow db
  if rc ≠ .ok then return (db, short, rc)
  let (db, rc) ← freeze db
  return (db, short, rc)

/-- The full-size log an install recycled, in place of an empty short one. -/
def flushRelog (db : Store) (short : Bool) : M (Store × Status) := do
  if short ∧ db.fl.isNone ∧ db.spare.isOpen ∧ logSize db ≤ db.spare.filled ∧ db.log.stop = 0 then
    let (db, rc) ← spareStep db none
    if rc ≠ .ok then return (db, rc)
    return (switchLog db, .ok)
  return (db, .ok)

def flushSteps (db : Store) : M (Store × Status) := do
  let (db, rc) ← sync db
  if rc ≠ .ok then return (db, rc)
  let (db, rc) ← flushStep db none
  if rc ≠ .ok then return (db, rc)
  let (db, short, rc) ← flushFreeze db
  if rc ≠ .ok then return (db, rc)
  let (db, rc) ← flushStep db none
  if rc ≠ .ok then return (db, rc)
  let (db, rc) ← flushRelog db short
  if rc ≠ .ok then return (db, rc)
  maybeCompact db 0

def flush (db : Store) : M (Store × Status) := do
  if db.failed then return (db, .failed)
  if db.users.writer then return (db, .misuse)
  let (db, rc) ← flushSteps db
  if db.failed then return (db, .io)
  return (db, if rc = .ok then .ok else fullOrIo rc)

def compDrop (db : Store) : M Store :=
  match db.comp with
  | none => pure db
  | some c => compFree db c true

def flushDrop (db : Store) : M Store :=
  match db.fl with
  | none => pure db
  | some f => do
    let db ← flushAbandon db f
    return { db with fl := none }

/-- `store_free`: an unfinished compaction's outputs and an unfinished flush's are named nowhere, so they go. -/
def storeFree (db : Store) : M Store := do
  let db ← compDrop db
  let db ← flushDrop db
  versionUnref db db.cur

def closeSync (db : Store) : M Store := do
  if db.failed then return db
  let (db, _) ← sync db
  return db

/-- `lsm_close`, and whether the store is gone. -/
def close (db : Store) : M (Store × Status × Bool) := do
  if db.users.writer ∨ db.users.nsnaps ≠ 0 then return (db, .misuse, false)
  let db ← closeSync db
  let db ← storeFree db
  return (db, .ok, true)

end Lsm
end Gbasic
