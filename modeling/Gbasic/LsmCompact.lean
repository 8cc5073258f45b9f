import Gbasic.LsmSrc
/-!
# LsmCompact — compaction, in slices

A compaction merges its inputs (`compStepRun`), a budget at a time, keeping the versions a reader that begins after it
may need (`compKeep`), and installs over whatever version is current when it ends (`compInstall`).  Files that overlap
nothing move down as they are (`l0MoveAlone`, `compStart`); `gcStart` rewrites a file for its blob space; `sweepDead`
drops the files of retired trees whole.  Of blob files equally dead `gcStart` takes the one whose record is oldest.
-/
namespace Gbasic
namespace Lsm

def reads (db : Store) : M Rd := do
  let a ← io (.reads db.cfg.dir db.cfg.identity)
  return a.rd

/-- What a new version must serve: a reader that has not begun yet, and begins at the last durable commit. -/
def horizon (db : Store) : Nat := db.durableSeq

def deathOf (dead : List Dead) (id : Nat) : Nat := ((dead.find? (fun d => d.id = id)).map (·.death)).getD 0

def noSkip : SkRef → Skip := fun _ => skInit

def within (budget : Option Nat) (work : Nat) : Bool :=
  match budget with
  | none => true
  | some n => work < n

/-! ## Installing a version -/

/-- `install`: name the new version in a manifest, then let the old one go. -/
def install (db : Store) (nv : Version) (gone : List FileMeta) : M (Store × Status) := do
  let old := db.cur
  let was := db.refs.obsolete
  let (db, rc) ← manifestWrite { db with refs.obsolete := gone.map (·.num) ++ was, cur := nv }
  if rc ≠ .ok then
    let db ← filesDrop { db with cur := old, refs.obsolete := was } nv.allFiles
    return (db, rc)
  let db ← versionUnref { db with refs.held := nv :: db.refs.held } old
  return ({ db with pace.vgen := db.pace.vgen + 1 }, .ok)

/-! ## Shapes -/

def levelBytes (v : Version) (l : Nat) : Nat := ((v.files l).map (fun m => m.size - FHDR)).sum

def levelLimit (db : Store) (l : Nat) : Nat := db.cfg.memtableLimit * 10 * 10 ^ (l - 1)

def overlaps (m : FileMeta) (lo hi : IKey) : Bool := lo ≤ m.largest && m.smallest ≤ hi

def filesOverlap (a b : FileMeta) : Bool := b.smallest ≤ a.largest && a.smallest ≤ b.largest

def moveable : List FileMeta → Bool
  | [] => true
  | f :: l => l.all (fun g => !filesOverlap f g) && moveable l

/-! ## A compaction in progress -/

def track (pending : List Nat) (before after : Builder) : List Nat :=
  if before.bnum ≠ after.bnum then pending ++ [after.bnum] else pending

def removePending (db : Store) : List Nat → M Unit
  | [] => return ()
  | num :: l => do
    let _ ← call (.remove (db.sstName num))
    let _ ← call (.remove (db.blobName num))
    removePending db l

def compOuts (db : Store) (c : Comp) : M (Store × List FileMeta) :=
  match c.b with
  | none => pure (db, c.outs)
  | some b => do
    let (db, fm, _) ← bldClose db b
    return (db, c.outs ++ fm.toList)

/-- `comp_free`: a compaction dropped; `abandon`: its outputs are named nowhere, so they go. -/
def compFree (db : Store) (c : Comp) (abandon : Bool) : M Store := do
  let (db, outs) ← compOuts db c
  if abandon then
    let db ← filesFree db outs
    removePending db c.pending
    return { db with comp := none }
  return { db with comp := none }

def compOpenOutput (db : Store) (c : Comp) : M (Store × Comp × Status) := do
  let (db, b) ← bldOpen db
  let c := { c with pending := c.pending ++ [b.num] }
  if b.rc ≠ .ok then return (db, c, b.rc)
  return (db, { c with b := some b }, .ok)

def compCloseOutput (db : Store) (c : Comp) (b : Builder) : M (Store × Comp × Status) := do
  let (db, fm, rc) ← bldClose db b
  return (db, { c with b := none, outs := c.outs ++ fm.toList }, rc)

/-- The version a finished compaction leaves: over whatever is current, its inputs out and its outputs in. -/
def compVersion (v : Version) (c : Comp) : Version :=
  let v := (c.inputs.take c.firstBelow).foldl (fun v m => versionRemove v c.level m) v
  let v := (c.inputs.drop c.firstBelow).foldl (fun v m => versionRemove v c.next m) v
  c.outs.foldl (fun v m => versionAdd v c.next m) v

def compInstall (db : Store) (c : Comp) : M (Store × Status) := do
  let (db, nv) := versionCopy db db.cur
  let (db, rc) ← install db (compVersion nv c) c.inputs
  let db ← compFree db { c with pending := [], outs := [] } false
  return (db, rc)

/-! ## The keep rule -/

/-- Whether an entry is kept, and whether what the oldest snapshot sees of its key has been met: nothing of a tree
retired by then, everything newer, of the rest the newest, unless it is a deletion with nothing below. -/
def compKeep (dead : List Dead) (keepAfter : Nat) (bottom keptVisible : Bool) (e : Ent) : Bool × Bool :=
  let death := deathOf dead e.key.id
  if death ≠ 0 ∧ death ≤ keepAfter then (false, keptVisible)
  else if .real keepAfter < e.seq then (true, keptVisible)
  else if !keptVisible then (!(bottom && e.val.isDel), true)
  else (false, keptVisible)

def compFull (db : Store) (c : Comp) : M (Store × Comp × Status) :=
  match c.b with
  | none => pure (db, c, .ok)
  | some b =>
    if c.target ≤ b.off - FHDR + (b.block.map entSize).sum then compCloseOutput db c b else pure (db, c, .ok)

def compNewKey (db : Store) (c : Comp) (k : IKey) : M (Store × Comp × Status) := do
  if c.cur = some k then return (db, c, .ok)
  let (db, c, rc) ← compFull db c
  if rc ≠ .ok then return (db, c, rc)
  return (db, { c with cur := some k, keptVisible := false }, .ok)

def compReloc (rd : Rd) (db : Store) (c : Comp) (e : Ent) : Status × Ent :=
  match e.val with
  | .blob p =>
    if c.gc.contains p.num then ((valCopy rd db.refs.recs e.val).1, { e with val := .put p.val }) else (.ok, e)
  | _ => (.ok, e)

def compOutput (db : Store) (c : Comp) : M (Store × Comp × Status) :=
  match c.b with
  | some _ => pure (db, c, .ok)
  | none => compOpenOutput db c

def compEmit (rd : Rd) (db : Store) (c : Comp) (e : Ent) : M (Store × Comp × Ent × Status) := do
  let (db, c, rc) ← compOutput db c
  if rc ≠ .ok then return (db, c, e, rc)
  let (rc, e) := compReloc rd db c e
  if rc ≠ .ok then return (db, c, e, rc)
  match c.b with
  | none => return (db, c, e, .ok)
  | some b =>
    let (db, b') ← bldAdd db b e
    return (db, { c with b := some b', pending := track c.pending b b' }, e, .ok)

def compPass (rd : Rd) (db : Store) (c : Comp) (e : Ent) (keep : Bool) : M (Store × Comp × Ent × Status) :=
  if keep then compEmit rd db c e else pure (db, c, e, .ok)

def compEntry (rd : Rd) (db : Store) (c : Comp) (i : Nat) (e : Ent) : M (Store × Comp × Nat × Status) := do
  let (db, c, rc) ← compNewKey db c e.key
  if rc ≠ .ok then return (db, c, 0, rc)
  let keep := compKeep db.dead c.keepAfter c.bottom c.keptVisible e
  let (db, c, e, rc) ← compPass rd db { c with keptVisible := keep.2 } e keep.1
  if rc ≠ .ok then return (db, c, 0, rc)
  let s := srcNext rd noSkip (c.src.getD i (Src.ofFiles [] false))
  return (db, { c with src := c.src.set i s }, e.work, s.rc)

def compLoop (rd : Rd) (budget : Option Nat) : Nat → Store → Comp → Nat → M (Store × Comp × Nat × Status)
  | 0, db, c, work => return (db, c, work, .ok)
  | f + 1, db, c, work => do
    if !within budget work then return (db, c, work, .ok)
    match mergeMin noSkip c.src 0 none with
    | none => return (db, c, work, .ok)
    | some (i, e) =>
      let (db, c, n, rc) ← compEntry rd db c i e
      if rc ≠ .ok then return (db, c, work + n, rc)
      compLoop rd budget f db c (work + n)

def compFuel (c : Comp) : Nat := (c.inputs.map (fun m => (m.body.blocks.map (·.2.length)).sum)).sum

def compStepRun (db : Store) (c : Comp) (budget : Option Nat) : M (Store × Nat × Status) := do
  let rd ← reads db
  match c.src.reverse.find? (fun s => s.rc ≠ .ok) with
  | some s =>
    let db ← compFree db c true
    return (db, 0, s.rc)
  | none =>
    let (db, c, work, rc) ← compLoop rd budget (compFuel c) db c 0
    if rc ≠ .ok then
      let db ← compFree db c true
      return (db, work, rc)
    if (mergeMin noSkip c.src 0 none).isSome then return ({ db with comp := some c }, work, .ok)
    match c.b with
    | none =>
      let (db, rc) ← compInstall db c
      return (db, work, rc)
    | some b =>
      let (db, c, rc) ← compCloseOutput db c b
      if rc ≠ .ok then
        let db ← compFree db c true
        return (db, work, rc)
      let (db, rc) ← compInstall db c
      return (db, work, rc)

/-! ## Blob space -/

def GC_DEAD_PCT : Nat := 50

def blobNums (db : Store) : List Nat := (db.refs.recs.reverse.flatMap (·.2)).dedup

def blobTotal (db : Store) (num : Nat) : M Nat := do
  let a ← io (.size (db.blobName num))
  return if a.rc = .ok then a.size else 0

def blobLive (v : Version) (num : Nat) : Nat :=
  (v.allFiles.map (fun m => ((m.blobs.filter (fun p => p.1 = num)).map (·.2)).sum)).sum

/-- The blob files dead enough, the deadest still pointed into (or 0), and the fraction it is dead. -/
def gcFold (db : Store) : List Nat → List Nat × Nat × Nat × Nat → M (List Nat × Nat × Nat × Nat)
  | [], acc => return acc
  | num :: l, (out, deadest, bd, bt) => do
    let tot ← blobTotal db num
    let live := blobLive db.cur num
    if tot = 0 ∨ tot < live ∨ (tot - live) * 100 < tot * GC_DEAD_PCT then gcFold db l (out, deadest, bd, bt)
    else if live ≠ 0 ∧ bd * tot < (tot - live) * bt then gcFold db l (out ++ [num], num, tot - live, tot)
    else gcFold db l (out ++ [num], deadest, bd, bt)

def gcCollect (db : Store) : M (List Nat × Nat) := do
  let (out, deadest, _, _) ← gcFold db (blobNums db) ([], 0, 0, 1)
  return (out, deadest)

/-! ## Beginning one -/

def leastKey : IKey := ⟨0, []⟩

def compMake (db : Store) (level next : Nat) (inputs : List FileMeta) (firstBelow : Nat) (forGc : Bool) :
    M Store := do
  let (gc, _) ← gcCollect db
  let rd ← reads db
  let upper := (inputs.take firstBelow).map (fun m => Src.ofFiles [m] false)
  let lower := if firstBelow < inputs.length then [Src.ofFiles (inputs.drop firstBelow) false] else []
  let c : Comp := {
    level := level
    next := next
    bottom := ((List.range LEVELS).filter (fun l => next < l)).all (fun l => (db.cur.files l).isEmpty)
    inputs := inputs
    firstBelow := firstBelow
    src := (upper ++ lower).map (fun s => srcSeek rd noSkip s leastKey .max)
    b := none
    cur := none
    keptVisible := false
    keepAfter := horizon db
    target := db.cfg.memtableLimit * 2
    outs := []
    pending := []
    gc := gc
    forGc := forGc }
  return { db with comp := some c }

def aloneFiles (v : Version) : List FileMeta :=
  (v.files 0).filter (fun f =>
    (v.files 0).all (fun g => g.num = f.num || !filesOverlap f g) && (v.files 1).all (fun g => !filesOverlap f g))

def moveDown (v : Version) (level next : Nat) (l : List FileMeta) : Version :=
  l.foldl (fun v m => versionRemove (versionAdd v next m) level m) v

def l0MoveAlone (db : Store) : M (Store × Status) := do
  let (db, nv) := versionCopy db db.cur
  install db (moveDown nv 0 1 (aloneFiles db.cur)) []

def span : List FileMeta → IKey × IKey
  | [] => (leastKey, leastKey)
  | [m] => (m.smallest, m.largest)
  | m :: l => (min m.smallest (span l).1, max m.largest (span l).2)

/-- The compaction of `upper` from `level`, with what it overlaps below; a trivial move where nothing does. -/
def compInto (db : Store) (level : Nat) (upper : List FileMeta) (forGc : Bool) : M (Store × Status) := do
  let (lo, hi) := span upper
  let lower := (db.cur.files (level + 1)).filter (fun m => overlaps m lo hi)
  if lower.isEmpty && moveable upper then
    let (db, nv) := versionCopy db db.cur
    install db (moveDown nv level (level + 1) upper) []
  else
    let db ← compMake db level (level + 1) (upper ++ lower) upper.length forGc
    return (db, .ok)

/-- Begin compacting `level` into the next.  A trivial move finishes here and leaves no compaction in progress. -/
def compStart (db : Store) (level : Nat) (forGc : Bool) : M (Store × Status) :=
  if level = 0 then
    if (aloneFiles db.cur).isEmpty then compInto db 0 (db.cur.files 0) forGc else l0MoveAlone db
  else
    let n := (db.cur.files level).length
    let pick := if db.pace.compactPtr level < n then db.pace.compactPtr level else 0
    let ptr := if n ≤ pick + 1 then 0 else pick + 1
    let db := { db with pace.compactPtr := fun l => if l = level then ptr else db.pace.compactPtr l }
    compInto db level [(db.cur.files level).getD pick noFile] forGc

def gcPick (v : Version) (deadest : Nat) : Option (Nat × FileMeta) :=
  let cands := ((List.range LEVELS).filter (0 < ·)).flatMap (fun l => (v.files l).flatMap (fun m =>
    (m.blobs.filter (fun p => p.1 = deadest)).map (fun p => (l, m, p.2))))
  (cands.foldl (fun best x => match best with
    | none => if 0 < x.2.2 then some x else none
    | some b => if b.2.2 < x.2.2 then some x else some b) none).map (fun x => (x.1, x.2.1))

def gcStart (db : Store) : M (Store × Status) := do
  if db.pace.gcSeen = db.pace.vgen + 1 then return (db, .ok)
  let (_, deadest) ← gcCollect db
  if deadest = 0 then return ({ db with pace.gcSeen := db.pace.vgen + 1 }, .ok)
  match gcPick db.cur deadest with
  | none => compStart db 0 true
  | some (l, m) =>
    let db ← compMake db l l [m] 1 true
    return (db, .ok)

/-! ## Retired trees' files -/

def fileAllDead (dead : List Dead) (m : FileMeta) (keepAfter : Nat) : Bool :=
  let a := m.smallest.id
  let b := m.largest.id
  if b < a ∨ 64 < b - a then false
  else (List.range (b - a + 1)).all (fun i =>
    let death := deathOf dead (a + i)
    death ≠ 0 && death ≤ keepAfter)

/-- `version_remove` of a file at whatever level it is. -/
def removeEverywhere (v : Version) (m : FileMeta) : Version := levels.foldl (fun v l => versionRemove v l m) v

def sweepDead (db : Store) : M (Store × Status) := do
  if db.comp.isSome then return (db, .ok)
  let keepAfter := horizon db
  let db := { db with pace.sweep := db.dead.any (fun d => keepAfter < d.death) }
  let gone := db.cur.allFiles.filter (fun m => fileAllDead db.dead m keepAfter)
  if gone.isEmpty then return (db, .ok)
  let (db, nv) := versionCopy db db.cur
  let (db, rc) ← install db (gone.foldl removeEverywhere nv) gone
  if rc ≠ .ok then return ({ db with pace.sweep := true }, rc)
  return (db, .ok)

/-! ## Pacing -/

def compWanted (db : Store) : Option Nat :=
  if db.cfg.l0Trigger ≤ (db.cur.files 0).length then some 0
  else ((List.range (LEVELS - 1)).filter (0 < ·)).find? (fun l =>
    !(db.cur.files l).isEmpty && levelLimit db l < levelBytes db.cur l)

def COMP_CREDIT_MIN : Nat := 32
def COMP_CREDIT_MAX : Nat := 32
def COMP_STALL : Nat := 3
def GC_CREDIT : Nat := 4

def compPressure (db : Store) : Nat :=
  ((List.range (LEVELS - 1)).filter (0 < ·)).foldl
    (fun p l => max p (levelBytes db.cur l * 1000 / levelLimit db l))
    ((db.cur.files 0).length * 1000 / db.cfg.l0Trigger)

def compCredit (db : Store) : Nat :=
  let p := compPressure db
  if p ≤ 1000 then COMP_CREDIT_MIN
  else if COMP_STALL * 1000 ≤ p then COMP_CREDIT_MAX
  else COMP_CREDIT_MIN + (COMP_CREDIT_MAX - COMP_CREDIT_MIN) * (p - 1000) / ((COMP_STALL - 1) * 1000)

/-- A compaction to work on, begun if one is wanted: `none` when there is nothing to do, `some` with whether there is
one now. -/
def compBegin (db : Store) (budget : Nat) : M (Store × Status × Bool) := do
  if db.comp.isSome then return (db, .ok, true)
  match compWanted db with
  | none =>
    if budget = 0 then return (db, .ok, false)
    let (db, rc) ← gcStart db
    return (db, rc, db.comp.isSome)
  | some l =>
    let (db, rc) ← compStart db l false
    return (db, rc, true)

def compTurns (wrote : Nat) : Nat → Store → Nat → M (Store × Status)
  | 0, db, _ => return (db, .ok)
  | guard + 1, db, budget => do
    let (db, rc, go) ← compBegin db budget
    if rc ≠ .ok then return (db, rc)
    if !go then return (db, .ok)
    match db.comp with
    | none => compTurns wrote guard db budget
    | some c =>
      let stall := decide (db.cfg.l0Trigger * COMP_STALL ≤ (db.cur.files 0).length)
      if !stall && budget == 0 then return (db, .ok)
      if !stall && c.forGc && (compWanted db).isNone then
        let (db, _, rc) ← compStepRun db c (some (if wrote * GC_CREDIT ≠ 0 then wrote * GC_CREDIT else 1))
        return (db, rc)
      let (db, used, rc) ← compStepRun db c (if stall then none else some budget)
      if rc ≠ .ok then return (db, rc)
      if db.comp.isSome && !stall then return (db, .ok)
      compTurns wrote guard db (if stall then budget else budget - used)

def maybeSweep (db : Store) : M (Store × Status) := if db.pace.sweep then sweepDead db else pure (db, .ok)

def maybeCompact (db : Store) (wrote : Nat) : M (Store × Status) := do
  let (db, rc) ← maybeSweep db
  if rc ≠ .ok then return (db, rc)
  compTurns wrote 64 db (wrote * compCredit db)

end Lsm
end Gbasic
