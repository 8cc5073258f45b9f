import Gbasic.LsmIo
/-!
# LsmStore — the store's state

Files, versions, what is in progress, and the store itself.  A sorted file's body is what reading it gives, fixed when
the file is written or the manifest naming it is read, since a sorted file is never written again.  Counted references
are derived: a version is held once for the store and once for each transaction that pinned it (`held`), a file for
each held version that has it, a blob file for each file record that points into it (`recs`).  Left out: what only
measures (`GsStats`), the descriptors a handle has open, and the block cache.  The lease stands beside the store.
-/
namespace Gbasic
namespace Lsm

/-- What reading a sorted file gives: whether it opens, its index and bloom filter, and its blocks. -/
structure FileBody where
  opens : Status
  index : List IdxEntry
  bloom : Bloom
  blocks : List (Status × List Ent)

structure FileMeta extends ManFile where
  body : FileBody

def eseq (m : FileMeta) (s : Seq) : Seq := m.seqOver.getD s

structure Version where
  vid : Nat
  files : Nat → List FileMeta
  mem : Nat
  imm : Option Nat

def levels : List Nat := List.range LEVELS

def Version.allFiles (v : Version) : List FileMeta := levels.flatMap v.files

def inVersion (v : Version) (num : Nat) : Bool := v.allFiles.any (fun m => m.num = num)

structure Builder where
  f : Bool
  num : Nat
  off : Nat
  entries : Nat
  block : List Ent
  index : List IdxEntry
  last : IKey
  lastSeq : Seq
  hashes : List Nat
  smallest : IKey
  smallSeq : Seq
  rc : Status
  bf : Bool
  bnum : Nat
  boff : Nat
  blobs : List (Nat × Nat)
  blocks : List (List Ent)

/-! ## Sources -/

inductive SkRef where
  | buf
  | mem (id : Nat)
  deriving DecidableEq

/-- One source of entries: a skiplist, standing on a node, or files that are disjoint and sorted, standing on an entry
of a block of one of them. -/
structure Src where
  sk : Option SkRef
  node : Option (IKey × Seq)
  files : List FileMeta
  fi : Nat
  bi : Nat
  ei : Nat
  valid : Bool
  rc : Status
  priv : Bool

/-! ## In progress -/

structure Comp where
  level : Nat
  next : Nat
  bottom : Bool
  inputs : List FileMeta
  firstBelow : Nat
  src : List Src
  b : Option Builder
  cur : Option IKey
  keptVisible : Bool
  keepAfter : Nat
  target : Nat
  outs : List FileMeta
  pending : List Nat
  gc : List Nat
  forGc : Bool

/-- The frozen memtable's flush: its builder, what it has still to write and the last key it met, the last commit
frozen, the logs those commits are in, and the numbers taken. -/
structure Flush where
  b : Option Builder
  rest : List Ent
  prev : Option IKey
  upto : Nat
  first : Nat
  last : Nat
  pending : List Nat

/-! ## The store -/

structure Config where
  dir : Nat
  block : Nat
  memtableLimit : Nat
  l0Trigger : Nat
  vsep : Nat
  cacheBytes : Nat
  identity : Nat

/-- The current log (`log_num`, `log_end`, `log_filled`, `log_prev`, `log_salt`) and the oldest to replay
(`log_first`). -/
structure LogState where
  num : Nat
  stop : Nat
  filled : Nat
  prev : Link
  salt : Nat
  first : Nat

/-- The next log: whether it is open, how far its zeros reach, the credit for more, and whether a freeze may take it. -/
structure Spare where
  isOpen : Bool
  filled : Nat
  credit : Nat
  ready : Bool

structure Mems where
  skip : Nat → Skip
  next : Nat

/-- References: the versions held, the file records (each with the blob files it points into), and the obsolete. -/
structure Refs where
  nextVid : Nat
  held : List Version
  recs : List (Nat × List Nat)
  obsolete : List Nat

structure Users where
  nsnaps : Nat
  writer : Bool
  readSeen : Nat
  readIdle : Nat

structure Pace where
  compactPtr : Nat → Nat
  vgen : Nat
  gcSeen : Nat
  sweep : Bool

structure Store where
  cfg : Config
  log : LogState
  spare : Spare
  nextFile : Nat
  lastSeq : Nat
  durableSeq : Nat
  cur : Version
  mems : Mems
  refs : Refs
  dead : List Dead
  users : Users
  comp : Option Comp
  fl : Option Flush
  pace : Pace
  failed : Bool

namespace Store

def sstName (db : Store) (num : Nat) : Name := ⟨db.cfg.dir, .sst num⟩
def blobName (db : Store) (num : Nat) : Name := ⟨db.cfg.dir, .blob num⟩
def logName (db : Store) (num : Nat) : Name := ⟨db.cfg.dir, .log num⟩
def tmpName (db : Store) : Name := ⟨db.cfg.dir, .tmp⟩
def path (db : Store) : Name := ⟨db.cfg.dir, .manifest⟩

def mem (db : Store) : Skip := db.mems.skip db.cur.mem

end Store

def Mems.set (ms : Mems) (id : Nat) (s : Skip) : Mems :=
  { ms with skip := fun j => if j = id then s else ms.skip j }

/-- The options a store is opened with: page size, memtable limit, level-0 trigger, separation threshold, cache. -/
structure Options where
  pageSize : Nat
  tuneA : Nat
  tuneB : Nat
  tuneC : Nat
  cacheBytes : Nat
  create : Bool

def Version.empty (vid mem : Nat) : Version := ⟨vid, fun _ => [], mem, none⟩

def storeNew (dir : Nat) (o : Options) : Store where
  cfg := {
    dir := dir
    block := if o.pageSize ≠ 0 then o.pageSize else 4096
    memtableLimit := if o.tuneA ≠ 0 then o.tuneA else 32 * 2 ^ 20
    l0Trigger := if o.tuneB ≠ 0 then o.tuneB else 4
    vsep := if o.tuneC ≠ 0 then o.tuneC else 4096
    cacheBytes := if o.cacheBytes ≠ 0 then o.cacheBytes else 64 * 2 ^ 20
    identity := 0 }
  log := ⟨0, 0, 0, .seed 0, 0, 0⟩
  spare := ⟨false, 0, 0, false⟩
  nextFile := 0
  lastSeq := 0
  durableSeq := 0
  cur := .empty 0 0
  mems := ⟨fun _ => skInit, 1⟩
  refs := ⟨1, [.empty 0 0], [], []⟩
  dead := []
  users := ⟨0, false, 0, 0⟩
  comp := none
  fl := none
  pace := ⟨fun _ => 0, 0, 0, false⟩
  failed := false

end Lsm
end Gbasic
