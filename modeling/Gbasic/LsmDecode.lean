import Gbasic.LsmBytes
/-!
# LsmDecode — the decoders of a store's files

`blockParse` and `fileOpen` read a sorted file, `manifestRead` the manifest and `replayLog` a log, each over the bytes
it is given.  Reads that fail, and memory that runs out, are left out.
-/
namespace Gbasic
namespace Raw

open Lsm (Status TRAIL FHDR FOOTER SEAL LOG_PRE LEVELS U64)

/-! ## A sorted file's blocks -/

/-- `Ent`, as it is on the disk. -/
structure Ent where
  k : List Byte
  seq : Nat
  type : Nat
  v : List Byte
  deriving DecidableEq

def blockEnt (m : Sums) (c : Cursor) : Decoder (Ent × Cursor) := do
  let (k, c) ← m.sized 9 c
  let (seq, c) ← c.le 8
  let (type, c) ← c.le 1
  let (v, c) ← m.sized 0 c
  return (⟨k, seq, type, v⟩, c)

def blockEnts (m : Sums) : Nat → Cursor → Decoder (List Ent × Cursor)
  | 0, c => return ([], c)
  | n + 1, c =>
    if c.rest = [] then return ([], c)
    else do
      let (e, c) ← blockEnt m c
      let (es, c) ← blockEnts m n c
      return (e :: es, c)

def blockParse (m : Sums) (raw : Buffer) (count : Nat) : Decoder (List Ent) := do
  let (es, c) ← blockEnts m count (raw.window 0 (raw.size - TRAIL)).cursor
  if es.length = count ∧ c.rest = [] then return es else corrupt

def blockRead (m : Sums) (raw : Buffer) : Decoder (List Ent) := do
  checkBlock raw
  let count := raw.get (raw.size - TRAIL) 4
  if raw.size < count then corrupt else blockParse m raw count

/-! ## A sorted file's header, index and filter -/

def GS_MAGIC : List Byte := text "GSQLDB" ++ [byte 0, byte 1]
def GS_FORMAT_MAJOR : Nat := 1
def GS_FORMAT_MINOR : Nat := 0
def FK_SORTED : Nat := 1
def FK_BLOB : Nat := 2

/-- `fhdr_check`: FORMAT for another major and for a sealed file, CORRUPT for the rest. -/
def fhdrCheck (identity : List Byte) (kind num : Nat) (p : Buffer) : Decoder Unit :=
  if p.bytes.take 8 ≠ GS_MAGIC ∨ p.get 60 4 ≠ crc32c (p.bytes.take 60) then corrupt
  else if p.get 8 2 ≠ GS_FORMAT_MAJOR then format
  else if p.get 13 1 % 2 = 1 then format
  else if 2 ≤ p.get 13 1 ∧ p.get 10 2 ≤ GS_FORMAT_MINOR then corrupt
  else if p.get 12 1 ≠ kind ∨ (p.window 16 16).bytes ≠ identity ∨ p.get 32 8 ≠ num then corrupt
  else return

structure IdxEntry where
  last : List Byte
  lastseq : Nat
  off : Nat
  size : Nat
  deriving DecidableEq

def idxEntry (m : Sums) (ioff : Nat) (c : Cursor) : Decoder (IdxEntry × Cursor) := do
  let (last, c) ← m.sized 20 c
  let (lastseq, c) ← c.le 8
  let (off, c) ← c.le 8
  let (size, c) ← c.le 4
  if off < FHDR then corrupt
  else do
    m.ranges [off + size] ioff
    return (⟨last, lastseq, off, size⟩, c)

structure FileIndex where
  index : List IdxEntry
  bloomBits : Nat
  bloom : List Byte
  deriving DecidableEq

/-- `file_open` of the file's bytes. -/
def fileOpen (m : Sums) (identity : List Byte) (num : Nat) (f : Buffer) : Decoder FileIndex :=
  if f.size < FHDR + FOOTER then corrupt
  else do
    fhdrCheck identity FK_SORTED num (f.window 0 FHDR)
    let foot := f.window (f.size - FOOTER) FOOTER
    if foot.get 60 4 ≠ crc32c (foot.bytes.take 60) then corrupt
    else do
      let ioff := foot.get 0 8
      let isz := foot.get 8 4
      let boff := foot.get 12 8
      let bsz := foot.get 20 4
      m.ranges [ioff + isz, boff + bsz] f.size
      let ib := f.window ioff isz
      let bb := f.window boff bsz
      checkBlock ib
      checkBlock bb
      let c := (ib.window 0 (isz - TRAIL)).cursor
      let index ← whileLeft (idxEntry m ioff) c.rest.length c
      let bits := bb.get (bsz - TRAIL) 4
      if bits / 8 + 1 ≠ bsz - TRAIL then corrupt else return ⟨index, bits, bb.bytes⟩

/-! ## The manifest -/

def GS_HEADER_FIXED : Nat := 80
def MANIFEST_SEAL : Nat := 4 + SEAL

structure FileHeader where
  minor : Nat
  pageSize : Nat
  identity : List Byte
  flags : Nat
  deriving DecidableEq

def headerRead (p : Buffer) : Decoder FileHeader :=
  if p.size < GS_HEADER_FIXED ∨ p.bytes.take 8 ≠ GS_MAGIC then format
  else if p.get 76 4 ≠ crc32c (p.bytes.take 76) then corrupt
  else if p.get 8 2 ≠ GS_FORMAT_MAJOR then format
  else
    let ps := p.get 12 4
    if ps < 512 ∨ 65536 < ps ∨ ps &&& (ps - 1) ≠ 0 then corrupt
    else return ⟨p.get 10 2, ps, (p.window 16 16).bytes, p.get 40 4⟩

structure FileRec where
  num : Nat
  size : Nat
  entries : Nat
  smallest : List Byte
  smallSeq : Nat
  largest : List Byte
  largeSeq : Nat
  seqOver : Nat
  ownBlob : Nat
  blobs : List (Nat × Nat)
  deriving DecidableEq

def getBytes (m : Sums) (c : Cursor) : Decoder (List Byte × Cursor) := m.sized 0 c

def getPair (m : Sums) (c : Cursor) : Decoder ((Nat × Nat) × Cursor) := do
  let (a, c) ← m.getU64 c
  let (b, c) ← m.getU64 c
  return ((a, b), c)

def counted {α : Type} (m : Sums) (body : Cursor → Decoder (α × Cursor)) (c : Cursor) : Decoder (List α × Cursor) := do
  let (n, c) ← m.getU64 c
  if c.limit < n then corrupt else times body n c

def fileRec (m : Sums) (c : Cursor) : Decoder (FileRec × Cursor) := do
  let (num, c) ← m.getU64 c
  let (size, c) ← m.getU64 c
  let (entries, c) ← m.getU64 c
  let (smallest, c) ← getBytes m c
  let (smallSeq, c) ← m.getU64 c
  let (largest, c) ← getBytes m c
  let (largeSeq, c) ← m.getU64 c
  let (seqOver, c) ← m.getU64 c
  let (ownBlob, c) ← m.getU64 c
  let (blobs, c) ← counted m (getPair m) c
  return (⟨num, size, entries, smallest, smallSeq, largest, largeSeq, seqOver, ownBlob, blobs⟩, c)

/-- `version_add` on a level after the first: before the files, from the end, whose least key is above its own. -/
def addSorted (f : FileRec) : List FileRec → List FileRec
  | [] => [f]
  | g :: l => if f.smallest < g.smallest ∧ ∀ h ∈ l, f.smallest < h.smallest then f :: g :: l else g :: addSorted f l

def versionAdd (l : Nat) (files : List FileRec) (f : FileRec) : List FileRec :=
  if l = 0 then files ++ [f] else addSorted f files

def blobRef (num : Nat) : List (Nat × Nat) → List (Nat × Nat)
  | [] => [(num, 1)]
  | (n, refs) :: l => if n = num then (n, refs + 1) :: l else (n, refs) :: blobRef num l

/-- What a manifest gives the store. -/
structure Manifest where
  block : Nat
  identity : List Byte
  nextFile : Nat
  logFirst : Nat
  lastSeq : Nat
  files : List (List FileRec)
  blob : List (Nat × Nat)
  dead : List (Nat × Nat)
  deriving DecidableEq

structure Body where
  nextFile : Nat
  logFirst : Nat
  lastSeq : Nat
  levels : List (List FileRec)
  dead : List (Nat × Nat)

def manifestBody (m : Sums) (c : Cursor) : Decoder (Body × Cursor) := do
  let (nextFile, c) ← m.getU64 c
  let (logFirst, c) ← m.getU64 c
  let (lastSeq, c) ← m.getU64 c
  let (levels, c) ← times (counted m (fileRec m)) LEVELS c
  let (dead, c) ← counted m (getPair m) c
  return (⟨nextFile, logFirst, lastSeq, levels, dead⟩, c)

def filesOf (levels : List (List FileRec)) : List (List FileRec) :=
    levels.mapIdx (fun l fs => fs.foldl (versionAdd l) [])

def blobOf (levels : List (List FileRec)) : List (Nat × Nat) :=
  levels.flatten.foldl (fun b f => f.blobs.foldl (fun b x => blobRef x.1 b) b) []

def manifestRead (m : Sums) (p : Buffer) : Decoder Manifest :=
  if p.size < GS_HEADER_FIXED + MANIFEST_SEAL + 4 ∨ p.get (p.size - 4) 4 ≠ crc32c
    (p.bytes.take (p.size - 4)) then corrupt
  else do
    let h ← headerRead p
    if h.flags % 2 = 1 then format
    else do
      let (b, c) ← manifestBody m ((p.window 0 (p.size - 4)).cursor.advance (GS_HEADER_FIXED + MANIFEST_SEAL))
      if c.rest = [] ∨ GS_FORMAT_MINOR < h.minor then
        return {
          block := h.pageSize
          identity := h.identity
          nextFile := b.nextFile
          logFirst := b.logFirst
          lastSeq := b.lastSeq
          files := filesOf b.levels
          blob := blobOf b.levels
          dead := b.dead
        }
      else corrupt

/-! ## The log -/

structure LogEnt where
  type : Nat
  k : List Byte
  v : List Byte
  deriving DecidableEq

def logEnt (m : Sums) (c : Cursor) : Decoder (LogEnt × Cursor) := do
  m.fits [c.pos + 1] c.limit
  let (type, c) ← c.le 1
  let (k, c) ← m.sized 0 c
  let (v, c) ← m.sized 0 c
  return (⟨type, k, v⟩, c)

def logEnts (m : Sums) : Nat → Cursor → List LogEnt × Decoder Cursor
  | 0, c => ([], .ok c)
  | n + 1, c =>
    match logEnt m c with
    | .error s => ([], .error s)
    | .ok (e, c) => ((e :: (logEnts m n c).1), (logEnts m n c).2)

def deadAdd (dead : List (Nat × Nat)) (id death : Nat) : List (Nat × Nat) :=
  if id ∈ dead.map (·.1) then dead else dead ++ [(id, death)]

/-- A record whose length and prefix come to nothing in thirty-two bits, and that chains to its own checksum. -/
def Sums.again : Sums → (rlen crc prev : Nat) → Bool
  | .machine, _, _, _ => false
  | .exact, rlen, crc, prev => decide ((8 + rlen) % 2 ^ 32 = 0 ∧ crc = prev)

/-- What a log has at an offset, after a record whose checksum is `prev`: no record that follows it, one that is sealed
or flagged, the entries of one before what is bad in it, or a whole one. -/
inductive Found where
  | nothing
  | refused
  | part (base : Nat) (es : List LogEnt)
  | whole (base count : Nat) (es : List LogEnt) (ids : List Nat) (rlen crc : Nat)
  | lost (s : Stop)

def u64s (n : Nat) (l : List Byte) : List Nat := (List.range n).map (fun i => leNat ((l.drop (8 * i)).take 8))

def findRecord (m : Sums) (f : Buffer) (off prev : Nat) : Found :=
  if f.size < off + 8 then .nothing
  else
    let rlen := f.get off 4
    let crc := f.get (off + 4) 4
    if rlen < LOG_PRE - 8 + 24 ∨ f.size < off + 8 + rlen then .nothing
    else
      let r := f.window (off + 8) rlen
      let p := r.window (LOG_PRE - 8) (rlen - (LOG_PRE - 8))
      let base := p.get 0 8
      let count := p.get 8 4
      if crc32c r.bytes ≠ crc ∨ p.get 12 4 ≠ prev then .nothing
      else if r.get 0 1 ≠ 0 ∨ r.get 4 4 ≠ 0 then .refused
      else
        match logEnts m count (p.cursor.advance 20) with
        | (es, .error (.rc _)) => .part base es
        | (_, .error stop) => .lost stop
        | (es, .ok c) =>
          let nret := leNat (c.rest.take 4)
          let ids := c.rest.drop 4
          if c.rest.length < 4 ∨ 8 * nret ≠ ids.length then .part base es
          else if m.again rlen crc prev then .lost .long
          else .whole base count es (u64s nret ids) rlen crc

/-- A replay in progress: the offset and the chain's last checksum, and what has been put in the memtable and the list
of the dead. -/
structure Replay where
  off : Nat
  prev : Nat
  ins : List Ent
  dead : List (Nat × Nat)
  lastSeq : Nat
  deriving DecidableEq

def Replay.insert (s : Replay) (base : Nat) (es : List LogEnt) : Replay :=
  { s with ins := s.ins ++ es.mapIdx (fun i e => ⟨e.k, (base + i) % U64, e.type, e.v⟩) }

/-- Past a record: the length's sum with its prefix is one of thirty-two bits. -/
def Replay.past (s : Replay) (commit : Nat) (ids : List Nat) (rlen crc : Nat) : Replay :=
  { s with
    off := s.off + (8 + rlen) % 2 ^ 32
    prev := crc
    dead := ids.foldl (fun d id => deadAdd d id commit) s.dead
    lastSeq := max s.lastSeq commit }

/-- `replay_log`, for so many turns of its loop. -/
def replayLog (m : Sums) (f : Buffer) : Nat → Replay → Decoder (Replay × Status)
  | 0, _ => .error .endless
  | n + 1, s =>
    match findRecord m f s.off s.prev with
    | .nothing => return (s, .ok)
    | .refused => return (s, .format)
    | .part base es => return (s.insert base es, .ok)
    | .lost stop => .error stop
    | .whole base count es ids rlen crc =>
      let commit := if count = 0 then base else (base + count - 1) % U64
      replayLog m f n ((s.insert base es).past commit ids rlen crc)

end Raw
end Gbasic
