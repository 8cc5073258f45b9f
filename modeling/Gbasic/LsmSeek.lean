import Gbasic.LsmBuild
import Gbasic.Search
/-!
# LsmSeek — the iterator over sorted files, the filter and a blob file's values

`srcSeek` looks for an entry by the files' largest keys, the index's last keys and the block's entries, `srcNext` goes
on to the next entry and `srcSeekLt` to the last before a place.  The block cache and the read-ahead, which give the
bytes the file has, are left out, and with them the flags that a file's index or a blob file's header has been read.
-/
namespace Gbasic
namespace Raw

open Lsm (SEAL FHDR TRAIL U64)
open Search

/-! ## Order -/

/-- `ent_cmp(...) < 0`: the key first, then the sequence, the newest first. -/
def entBefore (ak : List Byte) (as : Nat) (bk : List Byte) (bs : Nat) : Bool :=
  decide (ak < bk ∨ ak = bk ∧ bs < as)

/-- `eseq`: a sequence, or the one that stands for all of the file's. -/
def eseq (seqOver s : Nat) : Nat := if seqOver ≠ 0 then seqOver else s

/-! ## A file's filter -/

def bloomMay (ix : FileIndex) (k : List Byte) : Bool :=
  (List.range 7).all (fun j =>
    let bit := probe ix.bloomBits (keyHash64 k) j
    match ix.bloom[bit / 8]? with
    | some b => b.val &&& 2 ^ (bit % 8) != 0
    | none => false)

/-! ## The iterator -/

structure Sst where
  fileMeta : FileRec
  file : Buffer

structure Src where
  identity : List Byte
  files : List Sst
  fi : Nat
  bi : Nat
  ei : Nat
  blk : List Ent
  valid : Bool

def member {α : Type} (l : List α) (i : Nat) : Decoder α :=
  match l[i]? with
  | some a => return a
  | none => .error .outside

def readExact (f : Buffer) (off n : Nat) : Decoder Buffer :=
  if (f.window off n).size = n then return f.window off n else corrupt

namespace Src

def opened (s : Src) (fi : Nat) : Decoder FileIndex := do
  let m ← member s.files fi
  fileOpen .machine s.identity m.fileMeta.num m.file

def load (s : Src) (fi bi : Nat) : Decoder Src := do
  let m ← member s.files fi
  let ix ← fileOpen .machine s.identity m.fileMeta.num m.file
  let ie ← member ix.index bi
  let raw ← readExact m.file ie.off ie.size
  let blk ← blockRead .machine raw
  return { s with fi := fi, bi := bi, blk := blk }

def ent (s : Src) : Decoder Ent := do
  let m ← member s.files s.fi
  let e ← member s.blk s.ei
  return { e with seq := eseq m.fileMeta.seqOver e.seq }

def here (s : Src) : Decoder (Option Ent) := if s.valid then some <$> s.ent else return none

/-- The files from `fi` on: the first that has a block whose last key is not before, and that block's first entry that
is not. -/
def seekFrom (s : Src) (k : List Byte) (seq : Nat) : (n fi : Nat) → Decoder Src
  | 0, _ => return { s with valid := false }
  | n + 1, fi => do
    let m ← member s.files fi
    let ix ← s.opened fi
    let seqOver := m.fileMeta.seqOver
    let blo := searchList (fun e : IdxEntry => entBefore e.last (eseq seqOver e.lastseq) k seq) ix.index
    if blo = ix.index.length then seekFrom s k seq n (fi + 1)
    else do
      let s ← s.load fi blo
      let elo := searchList (fun e : Ent => entBefore e.k (eseq seqOver e.seq) k seq) s.blk
      if elo < s.blk.length then return { s with ei := elo, valid := true } else seekFrom s k seq n (fi + 1)

def seek (s : Src) (k : List Byte) (seq : Nat) : Decoder Src :=
  let lo := searchList (fun m : Sst => entBefore m.fileMeta.largest
    (eseq m.fileMeta.seqOver m.fileMeta.largeSeq) k seq) s.files
  seekFrom { s with valid := false } k seq (s.files.length - lo) lo

def stepOn (s : Src) : (n fi bi : Nat) → Decoder Src
  | 0, _, _ => .error .endless
  | n + 1, fi, bi => do
    let ix ← s.opened fi
    if ix.index.length ≤ bi then
      if s.files.length ≤ fi + 1 then return { s with valid := false } else stepOn s n (fi + 1) 0
    else do
      let s ← s.load fi bi
      if s.blk ≠ [] then return { s with ei := 0 } else stepOn s n fi (bi + 1)

/-- The turns that are enough for all of the files' blocks: one for each byte, and one for each file. -/
def turns (s : Src) : Nat := (s.files.map (fun m => m.file.size + 1)).sum + 1

def next (s : Src) : Decoder Src :=
  if s.valid then
    if s.ei + 1 < s.blk.length then return { s with ei := s.ei + 1 } else s.stepOn s.turns s.fi (s.bi + 1)
  else return s

/-- The last block before block `bi` of file `fi` that has an entry, and its last. -/
def stepBack (s : Src) : (n fi bi : Nat) → Decoder Src
  | 0, _, _ => .error .endless
  | n + 1, fi, 0 =>
    if fi = 0 then return { s with valid := false }
    else do
      let ix ← s.opened (fi - 1)
      if ix.index.length = 0 then stepBack s n (fi - 1) 0
      else do
        let s ← s.load (fi - 1) (ix.index.length - 1)
        if s.blk ≠ [] then return { s with ei := s.blk.length - 1, valid := true }
        else stepBack s n (fi - 1) (ix.index.length - 1)
  | n + 1, fi, bi + 1 => do
    let s ← s.load fi bi
    if s.blk ≠ [] then return { s with ei := s.blk.length - 1, valid := true } else stepBack s n fi bi

/-- `src_seek_lt`: the last entry before, from the first that is not or from the end. -/
def seekLt (s : Src) (k : List Byte) (seq : Nat) : Decoder Src := do
  let s ← s.seek k seq
  if s.valid then
    if 0 < s.ei then return { s with ei := s.ei - 1 } else s.stepBack s.turns s.fi s.bi
  else s.stepBack s.turns s.files.length 0

/-- The entries from the one it stands on, with `src_next` until it is not valid. -/
def entries (s : Src) : Nat → Decoder (List Ent)
  | 0 => .error .endless
  | n + 1 =>
    if s.valid then do
      let e ← s.ent
      let s ← s.next
      let es ← s.entries n
      return e :: es
    else return []

end Src

def srcOf (identity : List Byte) (m : Sst) : Src := ⟨identity, [m], 0, 0, 0, [], false⟩

/-! ## Long values -/

def blobRead (identity : List Byte) (blobs : Nat → Option Buffer) (ptr : List Byte) : Decoder (List Byte) :=
  if ptr.length ≠ BLOB_PTR then corrupt
  else
    let num := leNat (ptr.take 8)
    let off := leNat ((ptr.drop 8).take 8)
    let len := leNat ((ptr.drop 16).take 4)
    let crc := leNat ((ptr.drop 20).take 4)
    match blobs num with
    | none => corrupt
    | some f => do
      let hd ← readExact f 0 FHDR
      fhdrCheck identity FK_BLOB num hd
      if off < FHDR then corrupt
      else do
        let out ← readExact f off (blobRec len)
        if crc32c out.bytes ≠ crc then corrupt else return out.bytes.drop SEAL

def valCopy (identity : List Byte) (blobs : Nat → Option Buffer) (e : Ent) : Decoder (List Byte) :=
  if e.type = TYPE_BLOB then blobRead identity blobs e.v else return e.v

end Raw
end Gbasic
