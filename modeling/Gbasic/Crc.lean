import Gbasic.Bytes
import Gbasic.Prog
import Gbasic.Remainder
/-!
# Crc — CRC32C (store_common.c)

`crc_init` fills eight tables at first use; `crc32c_extend_portable` goes eight bytes at a time through them and the
bytes that are left one at a time.  On an x86-64 with the instruction `crc32c_extend` is `crc_hw`, and the instruction
is written here as the processor's manual has it: both operands backwards, the remainder of a long division, and that
backwards again.  `Statics` holds the module's variables, with what `crc_ready` says of the tables.
-/
namespace Gbasic
namespace Crc

open Register

/-- `uint32_t`. -/
abbrev U32 := BitVec 32

/-- A byte as a `uint32_t`. -/
def u32 (b : Byte) : U32 := BitVec.ofNat 32 b.val

/-- A `uint32_t` below 256 as an index into a table. -/
def index (c : U32) : Byte := byte c.toNat

def castagnoli : U32 := 0x82F63B78#32

/-! ## The definition -/

def octet (b : Byte) : List Bool := bits 8 (u32 b)

def octets (data : List Byte) : List Bool := data.flatMap octet

/-- CRC-32C bit by bit, from what `crc` left: complemented, moved down by each bit, complemented. -/
def bitwise (crc : U32) (data : List Byte) : U32 := ~~~feed castagnoli (~~~crc) (octets data)

/-! ## The tables -/

/-- `crc_table[8][256]`. -/
abbrev Table := Vector (Vector U32 256) 8

def Table.entry (T : Table) (t : Fin 8) (i : Byte) : U32 := T[t][i]

def Table.put (T : Table) (t : Fin 8) (i : Byte) (v : U32) : Table := Vector.set T t (T[t].set i v)

theorem Table.entry_put (T : Table) (t u : Fin 8) (i j : Byte) (v : U32) :
    (T.put t i v).entry u j = if u = t ∧ j = i then v else T.entry u j := by
  rw [Table.put, Table.entry, Table.entry, Fin.getElem_fin, Fin.getElem_fin, Vector.getElem_set]
  by_cases hu : t = u
  · subst hu
    rw [if_pos rfl, Fin.getElem_fin, Vector.getElem_set]
    by_cases hj : i = j
    · rw [if_pos (congrArg Fin.val hj), if_pos ⟨rfl, hj.symm⟩]
    · rw [if_neg (fun h => hj (Fin.ext h)), if_neg (fun h => hj h.2.symm)]
      rfl
  · rw [if_neg (fun h => hu (Fin.ext h)), if_neg (fun h => hu h.1.symm)]
    rfl

def crcBit (c : U32) : U32 := c >>> 1 ^^^ (0x82F63B78#32 &&& (0#32 - (c &&& 1#32)))

/-- The first loop of `crc_init`: table 0. -/
def crcInitFirst (T : Table) : Table :=
  Fin.foldl 256 (fun T (i : Byte) => T.put 0 i (Fin.foldl 8 (fun c _ => crcBit c) (u32 i))) T

def crcInitRest (T : Table) : Table :=
  Fin.foldl 256 (fun T (i : Byte) =>
    Fin.foldl 7 (fun T (t : Fin 7) =>
      T.put t.succ i (T.entry t.castSucc i >>> 8 ^^^ T.entry 0 (index (T.entry t.castSucc i &&& 0xFF#32)))) T) T

def Made (T : Table) : Prop := ∀ t i, T.entry t i = advance castagnoli (8 * (t.val + 1)) (u32 i)

theorem loop_inv {α : Type} : ∀ {n : Nat} (f : α → Fin n → α) (I : Nat → α → Prop) {x : α}, I 0 x →
    (∀ (i : Fin n) (y : α), I i.val y → I (i.val + 1) (f y i)) → I n (Fin.foldl n f x)
  | 0, _, _, _, h0, _ => by
    rw [Fin.foldl_zero]
    exact h0
  | n + 1, f, I, x, h0, hstep => by
    rw [Fin.foldl_succ_last]
    exact hstep (Fin.last n) _ (loop_inv (fun y i => f y i.castSucc) I h0 (fun i y hy => hstep i.castSucc y hy))

theorem u32_toNat (b : Byte) : (u32 b).toNat = b.val := by
  rw [u32, BitVec.toNat_ofNat, Nat.mod_eq_of_lt (by have := b.isLt; omega)]

theorem u32_index {c : U32} (h : c.toNat < 256) : u32 (index c) = c := by
  apply BitVec.eq_of_toNat_eq
  rw [u32_toNat, index, byte_val, Nat.mod_eq_of_lt h]

theorem low_lt (c : U32) : (c &&& 0xFF#32).toNat < 256 := by
  rw [BitVec.toNat_and]
  exact Nat.lt_of_le_of_lt Nat.and_le_right (by decide)

theorem crcBit_eq (c : U32) : crcBit c = shift castagnoli c := by
  rw [crcBit, shift, BitVec.and_one_eq_setWidth_ofBool_getLsbD]
  cases c.getLsbD 0 <;> rfl

theorem advance_byte (c : U32) :
    advance castagnoli 8 c = c >>> 8 ^^^ advance castagnoli 8 (u32 (index (c &&& 0xFF#32))) := by
  have hones : ∀ i, i < 8 → (0xFF#32).getLsbD i = true := by decide
  have hdown : (c &&& 0xFF#32) >>> 8 = 0#32 := by
    rw [BitVec.ushiftRight_and_distrib]
    exact BitVec.and_zero
  rw [u32_index (low_lt c), advance_agree castagnoli 8 (d := c &&& 0xFF#32) (fun i hi => by
    rw [BitVec.getLsbD_and, hones i hi, Bool.and_true]), BitVec.ushiftRight_xor_distrib, hdown, BitVec.xor_zero]

theorem made_first (T : Table) : ∀ i, (crcInitFirst T).entry 0 i = advance castagnoli 8 (u32 i) := by
  have hinner : ∀ i : Byte, Fin.foldl 8 (fun c _ => crcBit c) (u32 i) = advance castagnoli 8 (u32 i) := by
    intro i
    refine loop_inv (fun c _ => crcBit c) (fun n c => c = advance castagnoli n (u32 i)) rfl (fun n c hc => ?_)
    rw [hc, crcBit_eq, advance, advance, ← Function.iterate_succ_apply' (shift castagnoli)]
  have hrun := loop_inv (fun T (i : Byte) => Table.put T 0 i (Fin.foldl 8 (fun c _ => crcBit c) (u32 i)))
    (fun n T => ∀ i : Byte, i.val < n → T.entry 0 i = advance castagnoli 8 (u32 i)) (x := T)
    (fun i hi => absurd hi (Nat.not_lt_zero _)) (fun n T hT i hi => ?_)
  · intro i
    rw [crcInitFirst]
    exact hrun i i.isLt
  · rw [Table.entry_put]
    by_cases h : i = n
    · rw [if_pos ⟨rfl, h⟩, hinner, h]
    · rw [if_neg (fun hn => h hn.2)]
      exact hT i (Nat.lt_of_le_of_ne (Nat.le_of_lt_succ hi) (fun hn => h (Fin.ext hn)))

theorem made_rest {T : Table} (h0 : ∀ i, T.entry 0 i = advance castagnoli 8 (u32 i)) : Made (crcInitRest T) := by
  have hrun := loop_inv (fun T (i : Byte) => Fin.foldl 7 (fun T (t : Fin 7) =>
      Table.put T t.succ i (T.entry t.castSucc i >>> 8 ^^^ T.entry 0 (index (T.entry t.castSucc i &&& 0xFF#32)))) T)
    (fun n T => (∀ i, T.entry 0 i = advance castagnoli 8 (u32 i)) ∧
      ∀ i : Byte, i.val < n → ∀ t, T.entry t i = advance castagnoli (8 * (t.val + 1)) (u32 i)) (x := T)
    ⟨h0, fun i hi => absurd hi (Nat.not_lt_zero _)⟩ (fun n T hT => ?_)
  · exact fun t i => hrun.2 i i.isLt t
  -- the tables of one byte, up to the one that was just filled
  have hbyte := loop_inv (fun T (t : Fin 7) =>
      Table.put T t.succ n (T.entry t.castSucc n >>> 8 ^^^ T.entry 0 (index (T.entry t.castSucc n &&& 0xFF#32))))
    (fun k T => (∀ i, T.entry 0 i = advance castagnoli 8 (u32 i)) ∧
      (∀ i : Byte, i.val < n.val → ∀ t, T.entry t i = advance castagnoli (8 * (t.val + 1)) (u32 i)) ∧
      ∀ t, t.val ≤ k → T.entry t n = advance castagnoli (8 * (t.val + 1)) (u32 n)) (x := T)
    ⟨hT.1, hT.2, fun t ht => ?_⟩ (fun k T hT => ?_)
  · refine ⟨hbyte.1, fun i hi t => ?_⟩
    rcases Nat.lt_or_eq_of_le (Nat.le_of_lt_succ hi) with hlt | heq
    · exact hbyte.2.1 i hlt t
    · rw [Fin.ext heq]
      exact hbyte.2.2 t (Nat.le_of_lt_succ t.isLt)
  · rw [show t = 0 from Fin.ext (Nat.le_zero.1 ht)]
    exact hT.1 n
  · obtain ⟨hzero, hbefore, hup⟩ := hT
    refine ⟨fun i => ?_, fun i hi t => ?_, fun t ht => ?_⟩
    · rw [Table.entry_put, if_neg (fun h => absurd h.1 (Fin.succ_ne_zero k).symm)]
      exact hzero i
    · rw [Table.entry_put, if_neg (fun h => absurd (congrArg Fin.val h.2) (Nat.ne_of_lt hi))]
      exact hbefore i hi t
    · rw [Table.entry_put]
      by_cases h : t = k.succ
      · rw [if_pos ⟨h, rfl⟩, hzero, ← advance_byte, hup k.castSucc (Nat.le_refl _), ← advance_add, h]
        congr 1
        show 8 + 8 * (k.val + 1) = 8 * (k.val + 1 + 1)
        omega
      · rw [if_neg (fun hk => h hk.1)]
        exact hup t (Nat.le_of_lt_succ (Nat.lt_of_le_of_ne ht (fun hk => h (Fin.ext hk))))

/-! ## The module's variables -/

inductive CrcMode where
  | undecided
  | portable
  | instruction
  deriving DecidableEq

/-- `crc_table`, `crc_ready` and `crc_mode`: once it says so, the tables are made. -/
structure Statics where
  table : Table
  ready : Bool
  mode : CrcMode
  made : ready = true → Made table

def Statics.start : Statics where
  table := Vector.replicate 8 (Vector.replicate 256 0#32)
  ready := false
  mode := .undecided
  made := fun h => absurd h Bool.false_ne_true

def crcInit : StateM Statics Unit :=
  modify (fun s =>
    { s with
      table := crcInitRest (crcInitFirst s.table)
      ready := true
      made := fun _ => made_rest (made_first s.table) })

def crcReady : StateM Statics Unit := do
  let s ← get
  if s.ready = false then crcInit else return ()

/-! ## A byte string through the tables -/

def byteStep (T : Table) (c : U32) (p : Byte) : U32 := c >>> 8 ^^^ T.entry 0 (index ((c ^^^ u32 p) &&& 0xFF#32))

def sliceBy8 (T : Table) : U32 → List Byte → U32 × List Byte
  | c, p0 :: p1 :: p2 :: p3 :: p4 :: p5 :: p6 :: p7 :: p =>
    let c := c ^^^ (u32 p0 ||| u32 p1 <<< 8 ||| u32 p2 <<< 16 ||| u32 p3 <<< 24)
    sliceBy8 T (T.entry 7 (index (c &&& 0xFF#32)) ^^^ T.entry 6 (index (c >>> 8 &&& 0xFF#32)) ^^^
      T.entry 5 (index (c >>> 16 &&& 0xFF#32)) ^^^ T.entry 4 (index (c >>> 24)) ^^^
      T.entry 3 p4 ^^^ T.entry 2 p5 ^^^ T.entry 1 p6 ^^^ T.entry 0 p7) p
  | c, p => (c, p)

def crc32cExtendPortable (crc : U32) (data : List Byte) : StateM Statics U32 := do
  crcReady
  let s ← get
  let (c, p) := sliceBy8 s.table (~~~crc) data
  return ~~~p.foldl (byteStep s.table) c

/-! ## The processor's instruction -/

/-- `CRC32`: both operands backwards, the source moved up by 32 and the destination by the source's width, what is left
of the two after division by `0x11EDC6F41`, and that backwards. -/
def instruction {k : Nat} (dest : U32) (src : BitVec k) : U32 :=
  (mod2 (src.reverse.setWidth (k + 32) <<< 32 ^^^ dest.reverse.setWidth (k + 32) <<< k) 0x11EDC6F41#33).reverse

def crc32qi (c : U32) (b : Byte) : U32 := instruction c (BitVec.ofNat 8 b.val)

/-- `__builtin_ia32_crc32di`: the upper half of the destination is neither read nor left. -/
def crc32di (c w : BitVec 64) : BitVec 64 := (instruction (c.setWidth 32) w).setWidth 64

def byteStepHw (c : BitVec 64) (p : Byte) : BitVec 64 := (crc32qi (c.setWidth 32) p).setWidth 64

def toAligned : Nat → BitVec 64 → List Byte → BitVec 64 × List Byte
  | _, c, [] => (c, [])
  | p, c, b :: data => if p &&& 7 ≠ 0 then toAligned (p + 1) (byteStepHw c b) data else (c, b :: data)

def wordsHw : BitVec 64 → List Byte → BitVec 64 × List Byte
  | c, p0 :: p1 :: p2 :: p3 :: p4 :: p5 :: p6 :: p7 :: p =>
    wordsHw (crc32di c (BitVec.ofNat 64 (leNat [p0, p1, p2, p3, p4, p5, p6, p7]))) p
  | c, p => (c, p)

def crcHw (crc : U32) (p : Nat) (data : List Byte) : U32 :=
  let (c, data) := toAligned p ((~~~crc).setWidth 64) data
  let (c, data) := wordsHw c data
  ~~~(data.foldl byteStepHw c).setWidth 32

/-! ## Which of the two -/

/-- What the program was built for and runs on: the `#if`, SSE4.2, and `GSQL_CRC`. -/
structure Host where
  x86 : Bool
  sse42 : Bool
  gsqlCrc : Option (List Byte)

def crcDecide (h : Host) : StateM Statics CrcMode := do
  let m := if h.gsqlCrc = some (text "portable") ∨ h.sse42 = false then .portable else .instruction
  modify (fun s => { s with mode := m })
  return m

def crcMode (h : Host) : StateM Statics CrcMode := do
  let s ← get
  if s.mode = .undecided then crcDecide h else return s.mode

/-- `crc32c_extend`, of bytes at address `p`. -/
def crc32cExtend (h : Host) (crc : U32) (p : Nat) (data : List Byte) : StateM Statics U32 := do
  if h.x86 then
    let m ← crcMode h
    if m = .instruction then return crcHw crc p data else crc32cExtendPortable crc data
  else crc32cExtendPortable crc data

def crc32c (h : Host) (p : Nat) (data : List Byte) : StateM Statics U32 := crc32cExtend h 0#32 p data

end Crc
end Gbasic
