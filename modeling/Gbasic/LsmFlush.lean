import Gbasic.LsmCompact
/-!
# LsmFlush — the spare log, the freeze, and the frozen memtable's flush

A full memtable is frozen (`freeze`): its log is synced, the spare becomes the log, and the frozen entries are written
to level 0 a slice at a time (`flushStep`), the newest version of each key and nothing of a tree retired by then.
`flushInstall` names the file and moves the first log to replay past the frozen ones, and only then do those go, the
newest of them renamed to be the next spare.
-/
namespace Gbasic
namespace Lsm

def LOG_STEP : Nat := 2 ^ 20
def ZEROS : Nat := 65536
def FLUSH_CREDIT : Nat := 2
def SPARE_CREDIT : Nat := 4
def READ_FLUSH_SLICE : Nat := 256 * 2 ^ 10
def READ_IDLE : Nat := 64
def SPARE_CHUNK : Nat := 4 * 2 ^ 20

/-- `log_step`, and `log_size`: what a new log, and a spare before a freeze, is filled to. -/
def logStep (db : Store) : Nat := min db.cfg.memtableLimit LOG_STEP

def logSize (db : Store) : Nat := logStep db

def zeroFill (n : Name) : Nat → Nat → Nat → M Status
  | 0, _, _ => return .ok
  | f + 1, off, stop => do
    if stop ≤ off then return .ok
    let len := min (stop - off) ZEROS
    let rc ← call (.write n off len (fun _ => .zero))
    if rc ≠ .ok then return rc
    zeroFill n f (off + len) stop

/-! ## The spare log -/

def spareOpen (db : Store) : M (Store × Status) := do
  if db.spare.isOpen then return (db, .ok)
  let n := db.logName (db.log.num + 1)
  let rc ← call (.open n true false)
  if rc ≠ .ok then return (db, rc)
  let rc ← call (.truncate n 0)
  if rc ≠ .ok then return (db, rc)
  return ({ db with spare.isOpen := true, spare.filled := 0 }, .ok)

/-- Zeros into the spare, up to `size` and while the budget lasts; what was spent. -/
def spareZeros (size : Nat) (budget : Option Nat) : Nat → Store → Nat → M (Store × Nat × Status)
  | 0, db, spent => return (db, spent, .ok)
  | f + 1, db, spent => do
    if size ≤ db.spare.filled ∨ !within budget spent then return (db, spent, .ok)
    let n := min (size - db.spare.filled) ZEROS
    let rc ← call (.write (db.logName (db.log.num + 1)) db.spare.filled n (fun _ => .zero))
    if rc ≠ .ok then return (db, spent, rc)
    spareZeros size budget f { db with spare.filled := db.spare.filled + n } (spent + n)

def spareSync (db : Store) (spent : Nat) : M (Store × Status) :=
  if spent ≠ 0 then flushFile db (db.logName (db.log.num + 1)) else pure (db, .ok)

/-- The spare filled and synced as far as the budget goes; ready once it is full and its name durable. -/
def spareFill (db : Store) (budget : Option Nat) : M (Store × Status) := do
  let (db, rc) ← spareOpen { db with spare.credit := 0 }
  if rc ≠ .ok then return (db, rc)
  let size := logSize db
  let (db, spent, rc) ← spareZeros size budget (size + 1) db 0
  if rc ≠ .ok then return (db, rc)
  let (db, rc) ← spareSync db spent
  if rc ≠ .ok then return (db, rc)
  if db.spare.filled < size then return (db, .ok)
  let rc ← call (.syncDir db.cfg.dir .spare)
  if rc ≠ .ok then return (db, rc)
  return ({ db with spare.ready := true }, .ok)

def spareStep (db : Store) (budget : Option Nat) : M (Store × Status) := do
  if db.spare.ready then return (db, .ok)
  match budget with
  | none => spareFill db none
  | some n =>
    let db := { db with spare.credit := db.spare.credit + n }
    if db.spare.credit < SPARE_CHUNK ∧ db.spare.filled + db.spare.credit < logSize db then return (db, .ok)
    spareFill db (some db.spare.credit)

/-! ## The flush -/

def immEnts (db : Store) : List Ent := (db.cur.imm.map (fun i => (db.mems.skip i).ents)).getD []

def flushDropFile (db : Store) (f : Flush) : M Store :=
  match f.b with
  | none => pure db
  | some b => do
    let (db, fm, _) ← bldClose db b
    filesFree { db with refs.obsolete := fm.toList.map (·.num) ++ db.refs.obsolete } fm.toList

/-- `flush_abandon`: a flush's file dropped; the frozen memtable stays, to be flushed again from its start. -/
def flushAbandon (db : Store) (f : Flush) : M Store := do
  let db ← flushDropFile db f
  removePending db f.pending
  return { db with fl := some { f with b := none, pending := [], rest := immEnts db, prev := none } }

def switchLog (db : Store) : Store :=
  { db with
    log := { db.log with
      num := db.log.num + 1
      stop := 0
      filled := db.spare.filled
      prev := .seed (db.log.num + 1) }
    spare := ⟨false, 0, 0, false⟩ }

/-- The old log synced, so that `durable_seq` covers the commits frozen with it. -/
def freezeSync (db : Store) : M (Store × Status) := do
  if db.durableSeq = db.lastSeq then return (db, .ok)
  let (db, rc) ← flushFile db (db.logName db.log.num)
  if rc ≠ .ok then return (db, rc)
  return ({ db with durableSeq := db.lastSeq }, .ok)

def freezeVersion (db : Store) : Store × Version :=
  let (db, nv) := versionCopy db db.cur
  ({ db with mems :=
      { skip := fun j => if j = db.mems.next then skInit else db.mems.skip j, next := db.mems.next + 1 } },
    { nv with imm := some nv.mem, mem := db.mems.next })

def freeze (db : Store) : M (Store × Status) := do
  if db.fl.isSome ∨ db.mem.count = 0 then return (db, .ok)
  let (db, rc) ← spareStep db none
  if rc ≠ .ok then return (db, rc)
  let (db, rc) ← freezeSync db
  if rc ≠ .ok then return (db, rc)
  let old := db.cur
  let (db, nv) := freezeVersion db
  let db ← versionUnref { db with cur := nv, refs.held := nv :: db.refs.held } old
  let f : Flush := ⟨none, immEnts db, none, db.lastSeq, db.log.first, db.log.num, []⟩
  return (switchLog { db with pace.vgen := db.pace.vgen + 1, fl := some f }, .ok)

def recycleLog (db : Store) (f : Flush) : M (Store × Bool) := do
  if db.spare.isOpen then return (db, false)
  let name := db.logName (db.log.num + 1)
  let rc ← call (.rename (db.logName f.last) name)
  if rc ≠ .ok then return (db, false)
  let rc ← call (.open name false false)
  if rc ≠ .ok then return (db, false)
  let a ← io (.size name)
  let sz := if a.rc = .ok then a.size else 0
  if logSize db ≤ sz ∧ sz ≠ 0 then return ({ db with spare.isOpen := true, spare.filled := sz }, true)
  let _ ← call (.remove name)
  return ({ db with spare.filled := 0 }, false)

def removeLogs (db : Store) : List Nat → M Unit
  | [] => return ()
  | k :: l => do
    let _ ← call (.remove (db.logName k))
    removeLogs db l

def frozenLogs (f : Flush) (keep : Bool) : List Nat :=
  ((List.range (f.last + 1 - f.first)).map (f.first + ·)).filter (fun k => !(keep && k == f.last))

/-- The version a flush leaves: the frozen memtable gone, its file, if it has one, the newest of level 0. -/
def flushVersion (v : Version) (fm : Option FileMeta) : Version :=
  match fm with
  | none => { v with imm := none }
  | some m => versionAdd { v with imm := none } 0 m

/-- The manifest that names a finished flush's file and moves the first log past the frozen ones. -/
def flushName (db : Store) (f : Flush) (fm : Option FileMeta) : M (Store × Status) := do
  let (db, nv) := versionCopy db db.cur
  let old := db.cur
  let firstBefore := db.log.first
  let nv := flushVersion nv fm
  let (db, rc) ← manifestWrite { db with log.first := f.last + 1, cur := nv }
  if rc ≠ .ok then
    let db := { db with
      cur := old
      log.first := firstBefore
      refs.obsolete := fm.toList.map (·.num) ++ db.refs.obsolete }
    let db ← filesDrop db nv.allFiles
    let db ← flushAbandon db { f with pending := [] }
    return (db, rc)
  let db ← versionUnref { db with refs.held := nv :: db.refs.held } old
  return ({ db with pace.vgen := db.pace.vgen + 1 }, .ok)

def flushClose (db : Store) (f : Flush) : M (Store × Option FileMeta × Status) :=
  match f.b with
  | none => pure (db, none, .ok)
  | some b => bldClose db b

def flushInstall (db : Store) (f : Flush) : M (Store × Status) := do
  let (db, fm, rc) ← flushClose db f
  let f := { f with b := none }
  if rc ≠ .ok then
    let db ← flushAbandon db f
    return (db, rc)
  let (db, rc) ← flushName db f fm
  if rc ≠ .ok then return (db, rc)
  let (db, keep) ← recycleLog db f
  removeLogs db (frozenLogs f keep)
  return ({ db with fl := none }, .ok)

def flushOutput (db : Store) (f : Flush) : M (Store × Flush × Status) :=
  match f.b with
  | some _ => pure (db, f, .ok)
  | none => do
    let (db, b) ← bldOpen db
    if b.rc ≠ .ok then return (db, f, b.rc)
    return (db, { f with b := some b, pending := f.pending ++ [b.num] }, .ok)

def flushEmit (db : Store) (f : Flush) (e : Ent) : M (Store × Flush × Status) := do
  let (db, f, rc) ← flushOutput db f
  if rc ≠ .ok then return (db, f, rc)
  match f.b with
  | none => return (db, f, .ok)
  | some b =>
    let (db, b') ← bldAdd db b e
    return (db, { f with b := some b', pending := track f.pending b b' }, b'.rc)

/-- The frozen entries, while the budget lasts: all but shadowed versions and trees retired by the freeze. -/
def flushLoop (budget : Option Nat) : List Ent → Store → Flush → Nat → M (Store × Flush × Status)
  | [], db, g, _ => return (db, { g with rest := [] }, .ok)
  | e :: l, db, g, spent => do
    if !within budget spent then return (db, { g with rest := e :: l }, .ok)
    let same := decide (g.prev = some e.key)
    let g := { g with prev := some e.key, rest := l }
    let death := deathOf db.dead e.key.id
    if same || (death != 0 && decide (death ≤ g.upto)) then flushLoop budget l db g spent
    else
      let (db, g, rc) ← flushEmit db g e
      if rc ≠ .ok then return (db, g, rc)
      flushLoop budget l db g (spent + e.work)

def flushStep (db : Store) (budget : Option Nat) : M (Store × Status) := do
  match db.fl with
  | none => return (db, .ok)
  | some f =>
    let (db, f, rc) ← flushLoop budget f.rest db f 0
    if rc ≠ .ok then
      let db ← flushAbandon db f
      return (db, rc)
    if f.rest ≠ [] then return ({ db with fl := some f }, .ok)
    flushInstall db f

def flushLive (db : Store) : M (Store × Status) := if db.mem.count ≠ 0 then freeze db else pure (db, .ok)

def flushMemtable (db : Store) : M (Store × Status) := do
  let (db, rc) ← flushStep db none
  if rc ≠ .ok then return (db, rc)
  let (db, rc) ← flushLive db
  if rc ≠ .ok then return (db, rc)
  let (db, rc) ← flushStep db none
  if rc ≠ .ok then return (db, rc)
  maybeCompact db 0

end Lsm
end Gbasic
