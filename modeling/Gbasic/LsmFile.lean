import Gbasic.LsmStore
/-!
# LsmFile — writing a sorted file, and the records that name it

`bldOpen`, `bldAdd` and `bldClose` write a sorted file and the blob file of its long values; `fileFree`, `fileDropRef`
and `versionUnref` let records go, and delete what nothing holds once it is obsolete.
-/
namespace Gbasic
namespace Lsm

def flushFile (db : Store) (n : Name) : M (Store × Status) := do
  let rc ← call (.sync n)
  if rc ≠ .ok then return ({ db with failed := true }, .io)
  return (db, .ok)

/-! ## The builder -/

def builderNew (num : Nat) (f : Bool) (rc : Status) : Builder where
  f := f
  num := num
  off := 0
  entries := 0
  block := []
  index := []
  last := ⟨0, []⟩
  lastSeq := .real 0
  hashes := []
  smallest := ⟨0, []⟩
  smallSeq := .real 0
  rc := rc
  bf := false
  bnum := 0
  boff := 0
  blobs := []
  blocks := []

def bldWrite (db : Store) (b : Builder) (p : Part) : M Builder := do
  if b.rc ≠ .ok then return b
  let rc ← writePart (db.sstName b.num) b.off p
  if rc ≠ .ok then return { b with rc := rc }
  return { b with off := b.off + p.len }

def bldOpen (db : Store) : M (Store × Builder) := do
  let num := db.nextFile
  let db := { db with nextFile := db.nextFile + 1 }
  let rc ← call (.open (db.sstName num) true false)
  if rc ≠ .ok then return (db, builderNew num false rc)
  let rc ← call (.truncate (db.sstName num) 0)
  if rc ≠ .ok then
    let _ ← call (.remove (db.sstName num))
    return (db, builderNew num false rc)
  let b ← bldWrite db (builderNew num true .ok) (.fhdr .sorted num db.cfg.identity)
  return (db, b)

def bldFinishBlock (db : Store) (b : Builder) : M Builder := do
  if b.block.isEmpty then return b
  let ie : IdxEntry := ⟨b.last, b.lastSeq, b.off, blockSize b.block⟩
  let b' ← bldWrite db { b with index := b.index ++ [ie] } (.block b.block)
  return { b' with block := [], blocks := b'.blocks ++ [b.block] }

def bldRef (blobs : List (Nat × Nat)) (num n : Nat) : List (Nat × Nat) :=
  if blobs.any (fun p => p.1 = num) then blobs.map (fun p => if p.1 = num then (p.1, p.2 + n) else p)
  else blobs ++ [(num, n)]

def bldBlobOpen (db : Store) (b : Builder) : M (Store × Builder × Status) := do
  if b.bf then return (db, b, .ok)
  let bnum := db.nextFile
  let db := { db with nextFile := db.nextFile + 1 }
  let b := { b with bnum := bnum }
  let rc ← call (.open (db.blobName bnum) true false)
  if rc ≠ .ok then
    let _ ← call (.remove (db.blobName bnum))
    return (db, b, rc)
  let rc ← call (.truncate (db.blobName bnum) 0)
  if rc ≠ .ok then
    let _ ← call (.remove (db.blobName bnum))
    return (db, b, rc)
  let rc ← writePart (db.blobName bnum) 0 (.fhdr .blob bnum db.cfg.identity)
  if rc ≠ .ok then return (db, { b with bf := true }, rc)
  return (db, { b with bf := true, boff := FHDR }, .ok)

/-- `bld_blob`: a long value into the builder's blob file, its seal and then its bytes. -/
def bldBlob (db : Store) (b : Builder) (v : Val) : M (Store × Builder × Status × BlobPtr) := do
  let (db, b, rc) ← bldBlobOpen db b
  if rc ≠ .ok then return (db, b, rc, ⟨0, 0, v⟩)
  let rc ← call (.write (db.blobName b.bnum) b.boff SEAL (part (.blobval v)))
  if rc ≠ .ok then return (db, b, rc, ⟨0, 0, v⟩)
  let rc ← call (.write (db.blobName b.bnum) (b.boff + SEAL) v.len (fun j => .of (.blobval v) (SEAL + j)))
  if rc ≠ .ok then return (db, b, rc, ⟨0, 0, v⟩)
  return (db, { b with boff := b.boff + BLOB_REC v.len, blobs := bldRef b.blobs b.bnum (BLOB_REC v.len) }, .ok,
    ⟨b.bnum, b.boff, v⟩)

def bldPut (db : Store) (b : Builder) (e : Ent) : M Builder := do
  let b := if b.entries = 0 then { b with smallest := e.key, smallSeq := e.seq } else b
  let b := if b.entries = 0 ∨ b.last ≠ e.key then { b with hashes := b.hashes ++ [keyHash64 e.key] } else b
  let b := { b with block := b.block ++ [e], last := e.key, lastSeq := e.seq, entries := b.entries + 1 }
  if db.cfg.block ≤ (b.block.map entSize).sum then bldFinishBlock db b else return b

def bldAdd (db : Store) (b : Builder) (e : Ent) : M (Store × Builder) := do
  if b.rc ≠ .ok then return (db, b)
  match e.val with
  | .put v =>
    if db.cfg.vsep ≠ 0 ∧ db.cfg.vsep ≤ v.len then
      let (db, b, rc, p) ← bldBlob db b v
      if rc ≠ .ok then return (db, { b with rc := rc })
      let b ← bldPut db b { e with val := .blob p }
      return (db, b)
    else
      let b ← bldPut db b e
      return (db, b)
  | .blob p =>
    let b ← bldPut db { b with blobs := bldRef b.blobs p.num (BLOB_REC p.val.len) } e
    return (db, b)
  | .del =>
    let b ← bldPut db b e
    return (db, b)

def Builder.body (b : Builder) (bloom : Bloom) : FileBody :=
  ⟨.ok, b.index, bloom, b.blocks.map (fun l => (.ok, l))⟩

def Builder.meta (b : Builder) (bloom : Bloom) : FileMeta where
  num := b.num
  size := b.off
  entries := b.entries
  smallest := b.smallest
  smallSeq := b.smallSeq
  largest := b.last
  largeSeq := b.lastSeq
  seqOver := none
  ownBlob := b.bnum
  blobs := b.blobs
  body := b.body bloom

/-- The blob file before the sorted file: nothing may point at a value that a power loss could take. -/
def bldSync (db : Store) (b : Builder) : M (Store × Status) := do
  if b.rc ≠ .ok then return (db, b.rc)
  if b.bf then
    let (db, rc) ← flushFile db (db.blobName b.bnum)
    if rc ≠ .ok then return (db, rc)
    flushFile db (db.sstName b.num)
  else flushFile db (db.sstName b.num)

/-- Finish, flush and describe the file.  Nothing went in, or writing it failed: nothing names it, and it goes. -/
def bldClose (db : Store) (b : Builder) : M (Store × Option FileMeta × Status) := do
  let b ← bldFinishBlock db b
  let ioff := b.off
  let idx := Part.index b.index b.entries
  let b ← bldWrite db b idx
  let bloom := bloomMake b.hashes
  let boff := b.off
  let b ← bldWrite db b (.bloom bloom)
  let b ← bldWrite db b (.footer ioff idx.len boff (bloomSize bloom) b.entries)
  let (db, rc) ← bldSync db b
  if rc = .ok ∧ b.entries ≠ 0 then
    return ({ db with refs.recs := (b.num, b.blobs.map (·.1)) :: db.refs.recs }, some (b.meta bloom), rc)
  let _ ← call (.remove (db.sstName b.num))
  if b.bnum ≠ 0 then
    let _ ← call (.remove (db.blobName b.bnum))
    return (db, none, rc)
  return (db, none, rc)

/-! ## Letting records go -/

/-- `blob_unref`: with the last record that points into it gone, a blob file goes if that record's file was deleted. -/
def blobUnref (db : Store) (num : Nat) (del : Bool) : M Unit := do
  if db.refs.recs.any (fun r => r.2.contains num) then return ()
  if del then
    let _ ← call (.remove (db.blobName num))
    return ()
  return ()

def blobsUnref (db : Store) (del : Bool) : List Nat → M Unit
  | [] => return ()
  | num :: l => do
    blobUnref db num del
    blobsUnref db del l

def fileFree (db : Store) (m : FileMeta) : M Store := do
  let del := db.refs.obsolete.contains m.num
  let db := { db with
    refs.recs := db.refs.recs.eraseP (fun r => r.1 = m.num)
    refs.obsolete := db.refs.obsolete.filter (· ≠ m.num) }
  blobsUnref db del (m.blobs.map (·.1))
  return db

def filesFree (db : Store) : List FileMeta → M Store
  | [] => return db
  | m :: l => do
    let db ← fileFree db m
    filesFree db l

def fileDropRef (db : Store) (m : FileMeta) : M Store := do
  if db.refs.obsolete.contains m.num then
    let _ ← call (.remove (db.sstName m.num))
    fileFree db m
  else fileFree db m

def filesDrop (db : Store) : List FileMeta → M Store
  | [] => return db
  | m :: l => do
    if db.refs.held.any (fun v => inVersion v m.num) then filesDrop db l
    else
      let db ← fileDropRef db m
      filesDrop db l

def versionUnref (db : Store) (v : Version) : M Store :=
  let db := { db with refs.held := db.refs.held.eraseP (fun x => x.vid = v.vid) }
  filesDrop db v.allFiles

/-! ## Versions -/

/-- `version_copy`: the same files and memtables, for a new version. -/
def versionCopy (db : Store) (v : Version) : Store × Version :=
  ({ db with refs.nextVid := db.refs.nextVid + 1 }, { v with vid := db.refs.nextVid })

def Version.setLevel (v : Version) (level : Nat) (l : List FileMeta) : Version :=
  { v with files := fun j => if j = level then l else v.files j }

def insertFile (m : FileMeta) (l : List FileMeta) : List FileMeta :=
  let n := l.length - (l.reverse.takeWhile (fun x => m.smallest < x.smallest)).length
  l.take n ++ m :: l.drop n

/-- `version_add`: level 0 in creation order, oldest first; the others by smallest key. -/
def versionAdd (v : Version) (level : Nat) (m : FileMeta) : Version :=
  if level = 0 then v.setLevel 0 (v.files 0 ++ [m]) else v.setLevel level (insertFile m (v.files level))

/-- `version_remove`: the version this one was copied from still holds the file. -/
def versionRemove (v : Version) (level : Nat) (m : FileMeta) : Version :=
  v.setLevel level ((v.files level).eraseP (fun x => x.num = m.num))

/-! ## The manifest -/

/-- What `manifest_write` writes: only the deaths of durable commits. -/
def manifestOf (db : Store) : Manifest where
  block := db.cfg.block
  identity := db.cfg.identity
  nextFile := db.nextFile
  logFirst := db.log.first
  lastSeq := db.lastSeq
  levels := levels.map (fun l => (db.cur.files l).map (·.toManFile))
  dead := db.dead.filter (fun d => d.death ≤ db.durableSeq)

def manifestTmp (db : Store) : M (Store × Status) := do
  let _ ← call (.remove db.tmpName)
  let rc ← call (.open db.tmpName true true)
  if rc ≠ .ok then return (db, rc)
  let rc ← writePart db.tmpName 0 (.manifest (manifestOf db))
  if rc ≠ .ok then return (db, rc)
  flushFile db db.tmpName

def syncDirFlush (db : Store) (site : Site) : M (Store × Status) := do
  let rc ← call (.syncDir db.cfg.dir site)
  if rc ≠ .ok then return ({ db with failed := true }, rc)
  return (db, .ok)

def manifestPublish (db : Store) : M (Store × Status) := do
  let (db, rc) ← manifestTmp db
  if rc ≠ .ok then return (db, rc)
  let (db, rc) ← syncDirFlush db .before
  if rc ≠ .ok then return (db, rc)
  let rc ← call (.rename db.tmpName db.path)
  if rc ≠ .ok then return (db, rc)
  syncDirFlush db .after

def manifestWrite (db : Store) : M (Store × Status) := do
  let (db, rc) ← manifestPublish db
  if rc ≠ .ok ∧ rc ≠ .io then
    let _ ← call (.remove db.tmpName)
    return (db, rc)
  return (db, rc)

end Lsm
end Gbasic
