import Gbasic.LsmCommit
/-!
# LsmOpen — creation and recovery

An open reads the manifest, replays every log from the manifest's first onward (`replay`, which stops at the first
record that does not chain to the one before it) and deletes whatever the store does not name (`sweepDir`).  A sorted
file is read here whole; the source reads it at its first use, and what cannot be read is answered then.  The lock and
the lease are left out, and the directory holds nothing but a database's names.  `salt` and `identity` are drawn for
the open, and `fuel` bounds the logs an open replays.
-/
namespace Gbasic
namespace Lsm

/-! ## Reading a sorted file -/

def loadBlock (f : File Cell) (e : IdxEntry) : Status × List Ent :=
  match readPart f e.off with
  | some (.block ents) => if blockSize ents = e.size then (.ok, ents) else (.corrupt, [])
  | _ => (.corrupt, [])

/-- `file_open` and the blocks: header, footer, index and bloom filter, each where the footer says. -/
def loadFile (f : File Cell) (num identity : Nat) : FileBody :=
  if f.size < FHDR + FOOTER ∨ readPart f 0 ≠ some (.fhdr .sorted num identity) then noBody
  else
    match readPart f (f.size - FOOTER) with
    | some (.footer ioff isz boff bsz _) =>
      match readPart f ioff, readPart f boff with
      | some (.index l _), some (.bloom b) =>
        if indexSize l = isz ∧ bloomSize b = bsz ∧ l.all (fun e => FHDR ≤ e.off && e.off + e.size ≤ ioff) then
          ⟨.ok, l, b, l.map (loadBlock f)⟩
        else noBody
      | _, _ => noBody
    | _ => noBody

def fileLoad (db : Store) (m : ManFile) : M FileMeta := do
  let a ← io (.read (db.sstName m.num))
  match a.err with
  | none => return ⟨m, loadFile a.file m.num db.cfg.identity⟩
  | some .enoent => return ⟨m, noBody⟩
  | some e => return ⟨m, { noBody with opens := ioerr (some e) }⟩

def levelLoad (db : Store) (l : Nat) : List ManFile → M Store
  | [] => return db
  | m :: ms => do
    let fm ← fileLoad db m
    levelLoad { db with
      cur := versionAdd db.cur l fm
      refs.recs := (m.num, m.blobs.map (·.1)) :: db.refs.recs } l ms

def levelsLoad (db : Store) : Nat → List (List ManFile) → M Store
  | _, [] => return db
  | l, ms :: ls => do
    let db ← levelLoad db l ms
    levelsLoad db (l + 1) ls

def manifestRead (db : Store) (m : Manifest) : M Store := do
  let db := { db with
    cfg := { db.cfg with block := m.block, identity := m.identity }
    nextFile := m.nextFile
    log := { db.log with num := m.logFirst, first := m.logFirst }
    lastSeq := m.lastSeq
    dead := m.dead }
  let db ← levelsLoad db 0 m.levels
  return { db with refs.held := [db.cur] }

/-! ## Replaying a log -/

/-- The records of a log from `off`, each chained to the one before; the offset after the last, and its link. -/
def replay (f : File Cell) : Nat → Nat → Link → List LogRec × Nat × Link
  | 0, off, prev => ([], off, prev)
  | n + 1, off, prev =>
    match readPart f off with
    | some (.record r) =>
      if r.prev = prev then
        let (rs, stop, last) := replay f n (off + recordSize r) r.link
        (r :: rs, stop, last)
      else ([], off, prev)
    | _ => ([], off, prev)

def replayApply (db : Store) (r : LogRec) : Store :=
  { db with
    mems := db.mems.set db.cur.mem (memApply db.mem r.base r.ents)
    dead := deadAddAll db.dead r.retired r.commit
    lastSeq := max db.lastSeq r.commit }

def replayLog (db : Store) (num : Nat) (f : File Cell) : Store :=
  let (rs, stop, last) := replay f (f.size + 1) 0 (.seed num)
  let db := rs.foldl replayApply db
  { db with log := { db.log with num := num, stop := stop, prev := last } }

/-- Every log from `k` onward, until there is none; whether one was opened. -/
def replayLogs : Nat → Store → Nat → Bool → M (Store × Bool × Status)
  | 0, db, _, got => return (db, got, .ok)
  | n + 1, db, k, got => do
    let a ← io (.open (db.logName k) false false)
    match a.err with
    | some .enoent => return (db, got, .ok)
    | some e => return (db, got, ioerr (some e))
    | none =>
      let a ← io (.read (db.logName k))
      if a.rc ≠ .ok then return (db, true, a.rc)
      replayLogs n (replayLog db k a.file) (k + 1) true

/-! ## The directory -/

def named (db : Store) : Base → Bool
  | .manifest => true
  | .tmp => false
  | .log n => (db.log.first ≤ n && n ≤ db.log.num) || (db.spare.isOpen && n == db.log.num + 1)
  | .sst n => inVersion db.cur n
  | .blob n => db.refs.recs.any (fun r => r.2.contains n)

def removeNames (dir : Nat) : List Base → M Unit
  | [] => return ()
  | b :: l => do
    let _ ← call (.remove ⟨dir, b⟩)
    removeNames dir l

def sweepDir (db : Store) : M Status := do
  let a ← io (.list db.cfg.dir)
  if a.rc ≠ .ok then return a.rc
  removeNames db.cfg.dir (a.names.filter (fun b => !named db b))
  return .ok

/-! ## Creation, recovery -/

def createLog (db : Store) : M (Store × Status) := do
  let n := db.logName 1
  let _ ← call (.remove n)
  let rc ← call (.open n true false)
  if rc ≠ .ok then return (db, rc)
  let rc ← call (.truncate n 0)
  if rc ≠ .ok then return (db, rc)
  let rc ← zeroFill n (logStep db + 1) 0 (logStep db)
  if rc ≠ .ok then return (db, rc)
  flushFile db n

def createManifest (db : Store) : M (Store × Status) := do
  let (db, rc) ← createLog db
  if rc ≠ .ok then return (db, rc)
  manifestWrite db

def createDb (db : Store) (identity salt : Nat) : M (Store × Status) := do
  let db := { db with
    cfg := { db.cfg with identity := identity }
    nextFile := 1
    log := { db.log with num := 1, first := 1 }
    lastSeq := 1 }
  let (db, rc) ← createManifest db
  return ({ db with
    log := { db.log with stop := 0, filled := logStep db, prev := .seed 1, salt := salt }
    durableSeq := db.lastSeq }, rc)

def openLog (db : Store) (got : Bool) : M (Store × Status) := do
  if got then return (db, .ok)
  let rc ← call (.open (db.logName db.log.num) true false)
  return ({ db with log := { db.log with prev := .seed db.log.num } }, rc)

def recover (db : Store) (m : Manifest) (salt fuel : Nat) : M (Store × Status) := do
  let db ← manifestRead db m
  let (db, got, rc) ← replayLogs fuel db db.log.num false
  if rc ≠ .ok then return (db, rc)
  let (db, rc) ← openLog db got
  if rc ≠ .ok then return (db, rc)
  let a ← io (.size (db.logName db.log.num))
  return ({ db with
    log := { db.log with filled := max (if a.rc = .ok then a.size else 0) db.log.stop, salt := salt }
    durableSeq := db.lastSeq }, .ok)

def openManifest (db : Store) (salt fuel : Nat) : M (Store × Status) := do
  let a ← io (.read db.path)
  if a.rc ≠ .ok then return (db, a.rc)
  match readPart a.file 0 with
  | some (.manifest m) => if manifestSize m = a.file.size then recover db m salt fuel else return (db, .corrupt)
  | _ => return (db, .corrupt)

def openFound (db : Store) (create : Bool) (identity salt fuel : Nat) : M (Store × Status) := do
  let a ← io (.open db.path false false)
  match a.err with
  | some .enoent => if create then createDb db identity salt else return (db, .notFound)
  | some e => return (db, ioerr (some e))
  | none => openManifest db salt fuel

/-- `lsm_open`. -/
def openStore (dir : Nat) (o : Options) (identity salt fuel : Nat) : M (Store × Status) := do
  let (db, rc) ← openFound (storeNew dir o) o.create identity salt fuel
  if rc ≠ .ok then return (db, rc)
  let rc ← sweepDir db
  return (db, rc)

end Lsm
end Gbasic
