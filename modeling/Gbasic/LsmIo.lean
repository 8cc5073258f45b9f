import Gbasic.Prog
import Gbasic.Disk
import Gbasic.LsmBase
/-!
# LsmIo — the names, the bytes and the calls of the I/O layer

A directory's names, what the store writes under them, and the calls it makes.  Whatever carries a checksum of its own
(a header, a block, a footer, a blob value, a manifest, a log record) is a `Part`, and a byte on disk is a part's `j`-th
or a zero: a part reads back when every one of its bytes is there, which is what its checksum tells when checksums do
not collide.  A `World` is the disk, the faults still to come (one is spent at each call) and the calls made.  A call
that fails leaves the disk as it was, except a sync, after which each pending write is on the disk or lost.
-/
namespace Gbasic
namespace Lsm

/-! ## Names -/

inductive Base where
  | manifest | tmp
  | log (n : Nat) | sst (n : Nat) | blob (n : Nat)
  deriving DecidableEq, Repr

/-- A name in a database directory: the live database's, or a copy's. -/
structure Name where
  dir : Nat
  base : Base
  deriving DecidableEq, Repr

/-! ## What is written -/

inductive FKind where
  | sorted | blob
  deriving DecidableEq, Repr

structure IdxEntry where
  last : IKey
  lastSeq : Seq
  off : Nat
  size : Nat
  deriving DecidableEq

structure ManFile where
  num : Nat
  size : Nat
  entries : Nat
  smallest : IKey
  smallSeq : Seq
  largest : IKey
  largeSeq : Seq
  seqOver : Option Seq
  ownBlob : Nat
  blobs : List (Nat × Nat)
  deriving DecidableEq

structure Dead where
  id : Nat
  death : Nat
  deriving DecidableEq, Repr

structure Manifest where
  block : Nat
  identity : Nat
  nextFile : Nat
  logFirst : Nat
  lastSeq : Nat
  levels : List (List ManFile)
  dead : List Dead
  deriving DecidableEq

/-- A log's chain: the seed of a log's number, or the checksum of a record, which covers the link before it. -/
inductive Link where
  | seed (num : Nat)
  | crc (prev : Link) (salt base : Nat) (ents : List (IKey × EVal)) (retired : List Nat)
  deriving DecidableEq

structure LogRec where
  prev : Link
  salt : Nat
  base : Nat
  ents : List (IKey × EVal)
  retired : List Nat
  deriving DecidableEq

def LogRec.link (r : LogRec) : Link := .crc r.prev r.salt r.base r.ents r.retired

/-- The last sequence a record commits. -/
def LogRec.commit (r : LogRec) : Nat := if r.ents.length = 0 then r.base else r.base + r.ents.length - 1

inductive Part where
  | fhdr (kind : FKind) (num identity : Nat)
  | block (ents : List Ent)
  | index (l : List IdxEntry) (entries : Nat)
  | bloom (b : Bloom)
  | footer (ioff isz boff bsz entries : Nat)
  | blobval (v : Val)
  | manifest (m : Manifest)
  | record (r : LogRec)
  deriving DecidableEq

def blockSize (ents : List Ent) : Nat := (ents.map entSize).sum + TRAIL

def indexSize (l : List IdxEntry) : Nat := (l.map (fun e => varint e.last.len + e.last.len + 20)).sum + TRAIL

def bloomSize (b : Bloom) : Nat := b.bits / 8 + 1 + TRAIL

def manFileSize (m : ManFile) : Nat :=
  24 + (varint m.smallest.len + m.smallest.len) + 8 + (varint m.largest.len + m.largest.len) + 8 + 8 + 8 + 8 +
    16 * m.blobs.length

def manifestSize (m : Manifest) : Nat :=
  80 + (4 + SEAL) + 24 + (m.levels.map (fun l => 8 + (l.map manFileSize).sum)).sum + 8 + 16 * m.dead.length + 4

def recordSize (r : LogRec) : Nat :=
  LOG_PRE + 20 +
    (r.ents.map (fun e => 1 + (varint e.1.len + e.1.len) + (varint e.2.vn + e.2.vn))).sum + 4 + 8 * r.retired.length

namespace Part

def len : Part → Nat
  | .fhdr _ _ _ => FHDR
  | .block ents => blockSize ents
  | .index l _ => indexSize l
  | .bloom b => bloomSize b
  | .footer _ _ _ _ _ => FOOTER
  | .blobval v => BLOB_REC v.len
  | .manifest m => manifestSize m
  | .record r => recordSize r

end Part

/-- A byte on disk: a zero, or a part's `j`-th byte. -/
inductive Cell where
  | zero
  | of (p : Part) (j : Nat)
  deriving DecidableEq

instance : Inhabited Cell := ⟨.zero⟩

def readPart (f : File Cell) (off : Nat) : Option Part :=
  match f.cell off with
  | .of p 0 => if off + p.len ≤ f.size ∧ ∀ j, j < p.len → f.cell (off + j) = .of p j then some p else none
  | _ => none

/-! ## Errors -/

inductive Errno where
  | enospc | ewouldblock | fenced | enoent | eexist | eio
  deriving DecidableEq, Repr

/-- `gs_io_status`. -/
def ioerr : Option Errno → Status
  | none => .ok
  | some .enospc => .full
  | some .ewouldblock => .busy
  | some .fenced => .fenced
  | some _ => .io

theorem ioerr_eq_ok (e : Option Errno) : ioerr e = .ok ↔ e = none := by
  rcases e with _ | e
  · simp [ioerr]
  · cases e <;> simp [ioerr]

/-! ## Calls -/

/-- Which `sync_dir` of the source a call is: the two of `manifest_write`, those that name a spare log, and a
backup's of its destination.  It is no part of the call. -/
inductive Site where
  | before | after | spare | copy
  deriving DecidableEq, Repr

/-- What reading after the open asks of the disk: block `bi` of a sorted file, or a blob value. -/
inductive ReadAt where
  | sst (num bi : Nat)
  | blob (num off : Nat) (v : Val)
  deriving DecidableEq

/-- A call.  `reads` stands for the block and blob reads of one slice: it is answered for each of them at once. -/
inductive IoOp where
  | open (n : Name) (create excl : Bool)
  | truncate (n : Name) (k : Nat)
  | write (n : Name) (off len : Nat) (cell : Nat → Cell)
  | sync (n : Name)
  | syncDir (dir : Nat) (site : Site)
  | rename (a b : Name)
  | remove (n : Name)
  | size (n : Name)
  | read (n : Name)
  | list (dir : Nat)
  | reads (dir identity : Nat)

structure IoAns where
  err : Option Errno
  size : Nat
  file : File Cell
  names : List Base
  rd : ReadAt → Status

def IoAns.ok : IoAns := ⟨none, 0, .empty, [], fun _ => .ok⟩

def IoAns.fail (e : Errno) : IoAns := ⟨some e, 0, .empty, [], fun _ => ioerr (some e)⟩

def IoAns.rc (a : IoAns) : Status := ioerr a.err

abbrev LsmDisk := Disk Name Cell

/-- What comes of a call: an error, with what a failed sync kept, and the reads of a slice that fail. -/
structure Fault where
  err : Option Errno
  kept : List Bool
  bad : List (ReadAt × Errno)

def Fault.none : Fault := ⟨Option.none, [], []⟩

structure World where
  disk : LsmDisk
  faults : List Fault
  trace : List (IoOp × Option Errno)

/-- One read: the file is there (a named file that is gone is CORRUPT) and, of a blob value, so are the header and the
value. -/
def rdOf (d : LsmDisk) (dir identity : Nat) (bad : List (ReadAt × Errno)) (r : ReadAt) : Status :=
  match bad.find? (fun p => p.1 = r) with
  | some p => ioerr (some p.2)
  | none =>
    match r with
    | .sst num _ => if (d.file ⟨dir, .sst num⟩).isSome then .ok else .corrupt
    | .blob num off v =>
      match d.file ⟨dir, .blob num⟩ with
      | none => .corrupt
      | some f =>
        if readPart f 0 = some (.fhdr .blob num identity) ∧ FHDR ≤ off ∧ readPart f off = some (.blobval v) then .ok
        else .corrupt

def perform (d : LsmDisk) (bad : List (ReadAt × Errno)) : IoOp → IoAns × LsmDisk
  | .open n create excl =>
    match d.view.get n with
    | some _ => if create && excl then (.fail .eexist, d) else (.ok, d)
    | none => if create then (.ok, d.create n) else (.fail .enoent, d)
  | .truncate n k => (.ok, d.write n (.trunc k))
  | .write n off len cell => (.ok, d.write n (.data off len cell))
  | .sync n => (.ok, d.sync n)
  | .syncDir dir _ => (.ok, d.syncDir (fun n => n.dir == dir))
  | .rename a b =>
    match d.view.get a with
    | some _ => (.ok, d.rename a b)
    | none => (.fail .enoent, d)
  | .remove n =>
    match d.view.get n with
    | some _ => (.ok, d.remove n)
    | none => (.fail .enoent, d)
  | .size n => ({ IoAns.ok with size := ((d.file n).getD .empty).size }, d)
  | .read n =>
    match d.file n with
    | some f => ({ IoAns.ok with file := f, size := f.size }, d)
    | none => (.fail .enoent, d)
  | .list dir => ({ IoAns.ok with names := (d.view.filter (fun p => p.1.dir = dir)).map (·.1.base) }, d)
  | .reads dir identity => ({ IoAns.ok with rd := rdOf d dir identity bad }, d)

/-- What a call that failed leaves. -/
def failed (d : LsmDisk) (kept : List Bool) : IoOp → LsmDisk
  | .sync n => d.syncFailed n kept
  | _ => d

def exec (w : World) (o : IoOp) : IoAns × World :=
  let f := w.faults.headD .none
  match f.err with
  | some e => (.fail e, ⟨failed w.disk f.kept o, w.faults.tail, (o, some e) :: w.trace⟩)
  | none =>
    let (a, d) := perform w.disk f.bad o
    (a, ⟨d, w.faults.tail, (o, a.err) :: w.trace⟩)

abbrev M := Prog IoOp IoAns

def io (o : IoOp) : M IoAns := Prog.request o

def call (o : IoOp) : M Status := do
  let a ← io o
  return a.rc

def part (p : Part) : Nat → Cell := fun j => .of p j

def writePart (n : Name) (off : Nat) (p : Part) : M Status := call (.write n off p.len (part p))

end Lsm
end Gbasic
