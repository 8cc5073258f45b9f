import Gbasic.Bytes
import Mathlib.Data.List.Lex
import Mathlib.Data.Prod.Lex
import Mathlib.Order.Fin.Basic
/-!
# LsmBase — keys, sequences, entries, and the skiplist

An internal key is a tree's id and the user's key; the order is the id's, then the bytes', which for eight big-endian
bytes of id is the order of the bytes.  A position is a key and a sequence, key ascending and sequence descending.
Sequences are the commits' (`real`), those of a transaction's spilled runs (`TXN_SEQ_BASE` and up, `run`) and the
buffer's (`UINT64_MAX`, `max`); that no store makes `2^64 - 2^32` commits is the one bound left out.  A blob pointer
carries the value its checksum commits to.
-/
namespace Gbasic
namespace Lsm

abbrev Bytes := List (Fin 256)

inductive Status where
  | ok | notFound | exists | order | busy | tooLarge | invalidated | corrupt | io | full | failed | format | readOnly
  | misuse | fenced
  deriving DecidableEq, Repr

def GS_MAX_KEY : Nat := 1024
def ID_LEN : Nat := 8
def CATALOG_ID : Nat := 0
def FIRST_TREE_ID : Nat := 2
def LEVELS : Nat := 7
def SEAL : Nat := 28
def FHDR : Nat := 64
def FOOTER : Nat := 64
def TRAIL : Nat := 4 + SEAL + 4
def BLOB_PTR : Nat := 24
def BLOB_REC (n : Nat) : Nat := n + SEAL
def LOG_PRE : Nat := 8 + 1 + 3 + 4 + SEAL
def U64 : Nat := 2 ^ 64

/-! ## Internal keys -/

structure IKey where
  id : Nat
  key : Bytes
  deriving DecidableEq, Repr

namespace IKey

def toLexKey (k : IKey) : Nat ×ₗ Bytes := toLex (k.id, k.key)

theorem toLexKey_injective : Function.Injective toLexKey := by
  intro a b h
  cases a; cases b
  simp only [toLexKey, EmbeddingLike.apply_eq_iff_eq, Prod.mk.injEq] at h
  rw [h.1, h.2]

instance : LinearOrder IKey := LinearOrder.lift' toLexKey toLexKey_injective

def len (k : IKey) : Nat := ID_LEN + k.key.length

/-- The eight bytes of the id, big-endian, then the key. -/
def bytes (k : IKey) : List Nat :=
  (List.range 8).map (fun i => k.id / 256 ^ (7 - i) % 256) ++ k.key.map (·.val)

end IKey

/-! ## Sequences -/

inductive Seq where
  | real (n : Nat)
  | run (i : Nat)
  | max
  deriving DecidableEq, Repr

namespace Seq

def rank : Seq → Nat ×ₗ Nat
  | .real n => toLex (0, n)
  | .run i => toLex (1, i)
  | .max => toLex (2, 0)

theorem rank_injective : Function.Injective rank := by
  intro a b h
  cases a <;> cases b <;> simp [rank] at h <;> simp [h]

instance : LinearOrder Seq := LinearOrder.lift' rank rank_injective

end Seq

/-- Key ascending, sequence descending: the internal order (`ent_cmp`). -/
abbrev Pos := IKey ×ₗ Seqᵒᵈ

def pos (k : IKey) (s : Seq) : Pos := toLex (k, OrderDual.toDual s)

/-! ## Entries -/

/-- A value: a user's bytes, or a tree's id as the catalog holds it, eight bytes. -/
inductive Val where
  | bytes (b : Bytes)
  | id64 (n : Nat)
  deriving DecidableEq, Repr

def Val.len : Val → Nat
  | .bytes b => b.length
  | .id64 _ => 8

structure BlobPtr where
  num : Nat
  off : Nat
  val : Val
  deriving DecidableEq, Repr

/-- An entry's type and value: `TYPE_DEL`, `TYPE_PUT`, `TYPE_BLOB`. -/
inductive EVal where
  | del
  | put (v : Val)
  | blob (p : BlobPtr)
  deriving DecidableEq, Repr

namespace EVal

def vn : EVal → Nat
  | .del => 0
  | .put v => v.len
  | .blob _ => BLOB_PTR

def isDel : EVal → Bool
  | .del => true
  | _ => false

/-- What a reader gets: nothing, or the value, a pointer's being the one it commits to. -/
def val : EVal → Option Val
  | .del => none
  | .put v => some v
  | .blob p => some p.val

end EVal

structure Ent where
  key : IKey
  seq : Seq
  val : EVal
  deriving DecidableEq, Repr

namespace Ent

def pos (e : Ent) : Pos := Lsm.pos e.key e.seq

/-- What a merge or a flush counts an entry as: `kn + vn + 16`. -/
def work (e : Ent) : Nat := e.key.len + e.val.vn + 16

end Ent

/-! ## The skiplist (memtable, and a write transaction's buffer) -/

def SK_MAX : Nat := 16

/-- The skiplist as the list its lowest level is, with what it counts and the state its heights are drawn from. -/
structure Skip where
  ents : List Ent
  bytes : Nat
  count : Nat
  rng : Nat
  deriving DecidableEq

def skInit : Skip := ⟨[], 0, 0, 0x2545F4914F6CDD1D⟩

def rngNext (r : Nat) : Nat := (r * 6364136223846793005 + 1442695040888963407) % U64

/-- The height drawn for a node, and the state after: one more for each draw whose top two bits are zero. -/
def skHeight : Nat → Nat → Nat → Nat × Nat
  | 0, h, r => (h, r)
  | f + 1, h, r =>
    if h < SK_MAX then
      let r' := rngNext r
      if r' / 2 ^ 62 = 0 then skHeight f (h + 1) r' else (h, r')
    else (h, r)

def skGe (s : Skip) (k : IKey) (q : Seq) : Option Ent := s.ents.find? (fun e => pos k q ≤ e.pos)

def skLt (s : Skip) (k : IKey) (q : Seq) : Option Ent := (s.ents.filter (fun e => e.pos < pos k q)).getLast?

def skNext (s : Skip) (k : IKey) (q : Seq) : Option Ent := s.ents.find? (fun e => pos k q < e.pos)

def insertEnt (e : Ent) : List Ent → List Ent
  | [] => [e]
  | x :: xs => if x.pos < e.pos then x :: insertEnt e xs else e :: x :: xs

def replaceEnt (e : Ent) (l : List Ent) : List Ent := l.map (fun x => if x.pos = e.pos then e else x)

/-- `sk_insert`: with `replace`, a node with the same key and sequence is overwritten in place. -/
def skInsert (s : Skip) (e : Ent) (replace : Bool) : Skip :=
  match replace, s.ents.find? (fun x => x.pos = e.pos) with
  | true, some x => { s with ents := replaceEnt e s.ents, bytes := s.bytes - x.val.vn + e.val.vn }
  | _, _ =>
    let (h, r) := skHeight SK_MAX 1 s.rng
    { ents := insertEnt e s.ents
      bytes := s.bytes + (e.key.len + e.val.vn + 48 + h * 8)
      count := s.count + 1
      rng := r }

/-! ## Bloom filters -/

def hashByte (h c : Nat) : Nat := ((h ^^^ c) * 1099511628211) % U64

def keyHash64 (k : IKey) : Nat :=
  let h := k.bytes.foldl hashByte 1469598103934665603
  let h := h ^^^ (h / 2 ^ 33)
  let h := (h * 0xff51afd7ed558ccd) % U64
  h ^^^ (h / 2 ^ 33)

def bloomBits (bits h : Nat) : List Nat :=
  let d := (h / 2 ^ 33) ||| (h * 2 ^ 31 % U64)
  (List.range 7).map (fun j => (h + j * d) % U64 % bits)

structure Bloom where
  bits : Nat
  set : List Nat
  deriving DecidableEq

def bloomMake (hashes : List Nat) : Bloom :=
  let bits := hashes.length * 10 + 64
  ⟨bits, hashes.flatMap (bloomBits bits)⟩

def bloomMay (b : Bloom) (k : IKey) : Bool := (bloomBits b.bits (keyHash64 k)).all (fun i => b.set.contains i)

/-! ## Sizes of the encodings -/

/-- How many bytes `varint_put` writes. -/
def varintLen (fuel v : Nat) : Nat :=
  match fuel with
  | 0 => 1
  | f + 1 => if 0x80 ≤ v then varintLen f (v / 128) + 1 else 1

def varint (v : Nat) : Nat := varintLen 10 v

/-- An entry in a block: its key's length and key, sequence and type, its value's length and value. -/
def entSize (e : Ent) : Nat := varint e.key.len + e.key.len + 9 + varint e.val.vn + e.val.vn

end Lsm
end Gbasic
