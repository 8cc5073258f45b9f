import Gbasic.LsmManifest
/-!
# LsmBuild — a sorted file written

`bldAdd` puts an entry into a block and a long value into the builder's blob file, `bldFinishBlock` closes a block that
has reached the target and notes its last key in the index, and `bldClose` writes the index, the filter and the footer
and describes the file.  The lengths that a pointer, the index and the footer keep are of 32 bits (`lePut 4`), and a
block counts its entries in as many.  Writes that fail are left out.
-/
namespace Gbasic
namespace Raw

open Lsm (SEAL FHDR FOOTER U64)

def TYPE_DEL : Nat := 0
def TYPE_PUT : Nat := 1
def TYPE_BLOB : Nat := 2
def BLOB_PTR : Nat := 24

/-- What of a store its builders use. -/
structure Db where
  identity : List Byte
  block : Nat
  vsep : Nat
  nextFile : Nat

structure Builder where
  db : Db
  num : Nat
  file : List Byte
  entries : Nat
  block : List Byte
  index : List Byte
  nblockEnts : Nat
  last : List Byte
  lastseq : Nat
  hashes : List Nat
  smallest : List Byte
  smallSeq : Nat
  bf : Option (List Byte)
  bnum : Nat
  blobs : List (Nat × Nat)

namespace Builder

def off (b : Builder) : Nat := b.file.length

end Builder

def keyHash64 (k : List Byte) : Nat :=
  let h := k.foldl (fun h b => (h ^^^ b.val) * 1099511628211 % U64) 1469598103934665603
  let h := (h ^^^ h / 2 ^ 33) * 0xff51afd7ed558ccd % U64
  h ^^^ h / 2 ^ 33

/-- `fhdr_build`, its checksum apart. -/
def fhdrBytes (identity : List Byte) (kind num : Nat) : List Byte :=
  GS_MAGIC ++ (lePut 2 GS_FORMAT_MAJOR ++ (lePut 2 GS_FORMAT_MINOR ++ (byte kind :: (List.replicate 3 (byte 0) ++
    (identity ++ (lePut 8 num ++ List.replicate 20 (byte 0)))))))

def fhdrBuild (identity : List Byte) (kind num : Nat) : List Byte :=
  fhdrBytes identity kind num ++ lePut 4 (crc32c (fhdrBytes identity kind num))

def bldOpen (db : Db) : Builder where
  db := { db with nextFile := db.nextFile + 1 }
  num := db.nextFile
  file := fhdrBuild db.identity FK_SORTED db.nextFile
  entries := 0
  block := []
  index := []
  nblockEnts := 0
  last := []
  lastseq := 0
  hashes := []
  smallest := []
  smallSeq := 0
  bf := none
  bnum := 0
  blobs := []

def sealBytes (blk : List Byte) (count : Nat) : List Byte := blk ++ (lePut 4 count ++ List.replicate SEAL (byte 0))

def sealBlock (blk : List Byte) (count : Nat) : List Byte :=
  sealBytes blk count ++ lePut 4 (crc32c (sealBytes blk count))

def putIdx (last : List Byte) (lastseq off size : Nat) : List Byte :=
  putBytes last ++ (lePut 8 lastseq ++ (lePut 8 off ++ lePut 4 size))

def bldFinishBlock (b : Builder) : Builder :=
  if b.nblockEnts = 0 then b
  else
    let block := sealBlock b.block b.nblockEnts
    { b with
      file := b.file ++ block
      index := b.index ++ putIdx b.last b.lastseq b.off block.length
      block := []
      nblockEnts := 0 }

def blobRec (n : Nat) : Nat := n + SEAL

def bldRef (num n : Nat) : List (Nat × Nat) → List (Nat × Nat)
  | [] => [(num, n % U64)]
  | (m, s) :: l => if m = num then (m, (s + n) % U64) :: l else (m, s) :: bldRef num n l

def bldBlobOpen (b : Builder) : Builder × List Byte :=
  match b.bf with
  | some f => (b, f)
  | none =>
    ({ b with bnum := b.db.nextFile, db := { b.db with nextFile := b.db.nextFile + 1 } },
      fhdrBuild b.db.identity FK_BLOB b.db.nextFile)

def putPtr (num off len crc : Nat) : List Byte := lePut 8 num ++ (lePut 8 off ++ (lePut 4 len ++ lePut 4 crc))

/-- `bld_blob`: a long value into the blob file, and the pointer to it. -/
def bldBlob (b : Builder) (v : List Byte) : Builder × List Byte :=
  let (b, f) := bldBlobOpen b
  let kept := List.replicate SEAL (byte 0) ++ v
  ({ b with bf := some (f ++ kept), blobs := bldRef b.bnum (blobRec v.length) b.blobs },
    putPtr b.bnum f.length v.length (crc32c kept))

def Db.separates (db : Db) (e : Ent) : Prop := e.type = TYPE_PUT ∧ db.vsep ≠ 0 ∧ db.vsep ≤ e.v.length

instance (db : Db) (e : Ent) : Decidable (db.separates e) := inferInstanceAs (Decidable (_ ∧ _))

def putEnt (e : Ent) : List Byte :=
  putBytes e.k ++ (lePut 8 e.seq ++ (byte e.type :: putBytes e.v))

/-- The entry `bld_add` writes for another, and the blob file's part of that. -/
def bldSeparate (b : Builder) (e : Ent) : Builder × Ent :=
  if b.db.separates e then
    let (b, ptr) := bldBlob b e.v
    (b, { e with type := TYPE_BLOB, v := ptr })
  else if e.type = TYPE_BLOB ∧ e.v.length = BLOB_PTR then
    ({ b with blobs := bldRef (leNat (e.v.take 8)) (blobRec (leNat ((e.v.drop 16).take 4))) b.blobs }, e)
  else (b, e)

def bldPut (b : Builder) (e : Ent) : Builder :=
  { b with
    smallest := if b.entries = 0 then e.k else b.smallest
    smallSeq := if b.entries = 0 then e.seq else b.smallSeq
    hashes := if b.entries = 0 ∨ b.last ≠ e.k then b.hashes ++ [keyHash64 e.k] else b.hashes
    block := b.block ++ putEnt e
    last := e.k
    lastseq := e.seq
    nblockEnts := (b.nblockEnts + 1) % 2 ^ 32
    entries := b.entries + 1 }

def bldAdd (b : Builder) (e : Ent) : Builder :=
  let (b, e) := bldSeparate b e
  let b := bldPut b e
  if b.db.block ≤ b.block.length then bldFinishBlock b else b

/-- The filter's bit for a hash's probe `j`. -/
def probe (bits h j : Nat) : Nat :=
  let d := h / 2 ^ 33 ||| h * 2 ^ 31 % U64
  (h + j * d) % U64 % bits

def setBit (bloom : List Byte) (bit : Nat) : List Byte :=
  bloom.modify (bit / 8) (fun b => byte (b.val ||| 2 ^ (bit % 8)))

def bloomBits (n : Nat) : Nat := n * 10 + 64

def bloomOf (hashes : List Nat) : List Byte :=
  let bits := bloomBits hashes.length
  hashes.foldl (fun bloom h => (List.range 7).foldl (fun bloom j => setBit bloom (probe bits h j)) bloom)
    (List.replicate (bits / 8 + 1) (byte 0))

def footBytes (ioff isz boff bsz entries : Nat) : List Byte :=
  lePut 8 ioff ++ (lePut 4 isz ++ (lePut 8 boff ++ (lePut 4 bsz ++ (lePut 8 entries ++ List.replicate 28 (byte 0)))))

def footBuild (ioff isz boff bsz entries : Nat) : List Byte :=
  footBytes ioff isz boff bsz entries ++ lePut 4 (crc32c (footBytes ioff isz boff bsz entries))

/-- What is closed: the file's bytes, its blob file's if there is one, and what a manifest will say of it. -/
structure Built where
  file : List Byte
  bf : Option (List Byte)
  fileMeta : FileRec

def bldClose (b : Builder) : Built :=
  let b := bldFinishBlock b
  let index := sealBlock b.index b.entries
  let bloom := sealBlock (bloomOf b.hashes) (bloomBits b.hashes.length)
  let foot := footBuild b.off index.length (b.off + index.length) bloom.length b.entries
  let file := b.file ++ (index ++ (bloom ++ foot))
  { file := file
    bf := b.bf
    fileMeta := {
      num := b.num
      size := file.length
      entries := b.entries
      smallest := b.smallest
      smallSeq := b.smallSeq
      largest := b.last
      largeSeq := b.lastseq
      seqOver := 0
      ownBlob := b.bnum
      blobs := b.blobs } }

/-- Entries added to one builder, and the builder closed. -/
def build (db : Db) (es : List Ent) : Built := bldClose (es.foldl bldAdd (bldOpen db))

end Raw
end Gbasic
