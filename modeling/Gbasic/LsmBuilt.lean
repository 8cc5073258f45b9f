import Gbasic.LsmSst
import Mathlib.Data.List.Forall2
import Mathlib.Data.Finset.Insert
import Mathlib.Data.Finset.Card
/-!
# LsmBuilt — what a builder has made of its entries

The entries as they are stored lie in blocks, closed ones and the one that is open, and the file and the index are what
the closed ones give (`Laid`).  A builder counts a block's entries in 32 bits: until a block has more, the blocks are
the entries cut where a block reaches the target (`cuts`).
-/
namespace Gbasic
namespace Raw

open Lsm (Status SEAL TRAIL FHDR FOOTER U64)
open List (length_append mem_append mem_singleton append_assoc append_nil mem_map)

variable {gs : List (List Ent)} {cur : List Ent} {e : Ent} {hd : List Byte}

/-! ## Cutting into blocks -/

section Cuts

variable {α : Type} (size : List α → Nat) (target : Nat)

/-- Cut where a block reaches the target, the first block begun with `cur`. -/
def cuts : (cur l : List α) → List (List α)
  | cur, [] => if cur.isEmpty then [] else [cur]
  | cur, a :: l => if target ≤ size (cur ++ [a]) then (cur ++ [a]) :: cuts [] l else cuts (cur ++ [a]) l

variable {size target}

theorem cuts_begun : ∀ (l cur : List α), cur ≠ [] → ∃ g ∈ cuts size target cur l, cur.length ≤ g.length
  | [], cur, hc => by
    cases cur with
    | nil => exact absurd rfl hc
    | cons a cur => exact ⟨a :: cur, by simp [cuts], le_rfl⟩
  | a :: l, cur, _ => by
    rw [cuts]
    by_cases h : target ≤ size (cur ++ [a])
    · rw [if_pos h]
      exact ⟨cur ++ [a], List.mem_cons_self .., by simp⟩
    · rw [if_neg h]
      obtain ⟨g, hg, hle⟩ := cuts_begun l (cur ++ [a]) (by simp)
      rw [length_append] at hle
      exact ⟨g, hg, by omega⟩

variable (size target) in
/-- The blocks there are, closed and open, are those of `cuts` unless one has more entries than 32 bits count; then one
of `cuts` has as well. -/
def Cut (gs : List (List α)) (cur : List α) : Prop :=
  ((∀ g ∈ gs, g.length < 2 ^ 32) ∧ cur.length < 2 ^ 32 ∧
      ∀ l, cuts size target [] (gs.flatten ++ cur ++ l) = gs ++ cuts size target cur l) ∨
    (((∃ g ∈ gs, 2 ^ 32 ≤ g.length) ∨ 2 ^ 32 ≤ cur.length) ∧
      ∀ l, ∃ g ∈ cuts size target [] (gs.flatten ++ cur ++ l), 2 ^ 32 ≤ g.length)

theorem Cut.nil : Cut size target [] ([] : List α) :=
  .inl ⟨fun g hg => (by cases hg), by simp, fun l => rfl⟩

theorem Cut.add {gs : List (List α)} {cur : List α} (h : Cut size target gs cur) (a : α) :
    if target ≤ size (cur ++ [a]) ∧ (cur ++ [a]).length % 2 ^ 32 ≠ 0 then Cut size target (gs ++ [cur ++ [a]]) []
    else Cut size target gs (cur ++ [a]) := by
  have hlen : (cur ++ [a]).length = cur.length + 1 := by simp
  have hassoc : ∀ l, gs.flatten ++ cur ++ a :: l = gs.flatten ++ (cur ++ [a]) ++ l := by
    intro l
    simp
  have hclosed : ∀ l, (gs ++ [cur ++ [a]]).flatten ++ [] ++ l = gs.flatten ++ (cur ++ [a]) ++ l := by
    intro l
    simp
  rcases h with ⟨hgs, hcur, hc⟩ | ⟨hbig, hc⟩
  · have hstep : ∀ l, cuts size target [] (gs.flatten ++ (cur ++ [a]) ++ l) =
        gs ++ (if target ≤ size (cur ++ [a]) then (cur ++ [a]) :: cuts size target [] l
          else cuts size target (cur ++ [a]) l) := by
      intro l
      rw [← hassoc, hc, cuts]
    by_cases hfull : cur.length + 1 < 2 ^ 32
    · have hmod : (cur ++ [a]).length % 2 ^ 32 ≠ 0 := by
        rw [hlen, Nat.mod_eq_of_lt hfull]
        omega
      by_cases ht : target ≤ size (cur ++ [a])
      · rw [if_pos ⟨ht, hmod⟩]
        refine .inl ⟨fun g hg => ?_, by simp, fun l => ?_⟩
        · rcases mem_append.1 hg with hg | hg
          · exact hgs g hg
          · rw [mem_singleton.1 hg, hlen]
            exact hfull
        · rw [hclosed, hstep, if_pos ht, append_assoc]
          rfl
      · rw [if_neg (fun h => ht h.1)]
        refine .inl ⟨hgs, by rw [hlen]; exact hfull, fun l => ?_⟩
        rw [hstep, if_neg ht]
    · -- the count comes to nothing
      have hmod : (cur ++ [a]).length % 2 ^ 32 = 0 := by
        rw [hlen, show cur.length + 1 = 2 ^ 32 by omega, Nat.mod_self]
      rw [if_neg (fun h => h.2 hmod)]
      refine .inr ⟨.inr (by rw [hlen]; omega), fun l => ?_⟩
      rw [hstep]
      by_cases ht : target ≤ size (cur ++ [a])
      · rw [if_pos ht]
        exact ⟨cur ++ [a], by simp, by rw [hlen]; omega⟩
      · rw [if_neg ht]
        obtain ⟨g, hg, hle⟩ : ∃ g ∈ cuts size target (cur ++ [a]) l, (cur ++ [a]).length ≤ g.length :=
          cuts_begun l (cur ++ [a]) (by simp)
        exact ⟨g, List.mem_append_right gs hg, by rw [hlen] at hle; omega⟩
  · have hnext : ∀ l, ∃ g ∈ cuts size target [] (gs.flatten ++ (cur ++ [a]) ++ l), 2 ^ 32 ≤ g.length := by
      intro l
      rw [← hassoc]
      exact hc (a :: l)
    split_ifs with ht
    · refine .inr ⟨.inl ?_, fun l => by rw [hclosed]; exact hnext l⟩
      rcases hbig with ⟨g, hg, hle⟩ | hle
      · exact ⟨g, List.mem_append_left _ hg, hle⟩
      · exact ⟨cur ++ [a], by simp, by rw [hlen]; omega⟩
    · refine .inr ⟨?_, hnext⟩
      rcases hbig with hbig | hle
      · exact .inl hbig
      · exact .inr (by rw [hlen]; omega)

end Cuts

/-! ## Blocks, index -/

def blockBytes (g : List Ent) : List Byte := sealBlock (g.flatMap putEnt) (g.length % 2 ^ 32)

def lastKey (g : List Ent) : List Byte := (g.getLast?.map (·.k)).getD []
def lastSeq (g : List Ent) : Nat := (g.getLast?.map (·.seq)).getD 0

def idxs : Nat → List (List Ent) → List IdxEntry
  | _, [] => []
  | off, g :: gs => ⟨lastKey g, lastSeq g, off, (blockBytes g).length % 2 ^ 32⟩ :: idxs (off + (blockBytes g).length) gs

def putIdxEntry (e : IdxEntry) : List Byte := putIdx e.last e.lastseq e.off e.size

theorem lePut_mod : ∀ w n : Nat, lePut w (n % 256 ^ w) = lePut w n
  | 0, _ => rfl
  | w + 1, n => by
    have hb : byte (n % 256 ^ (w + 1)) = byte n := by
      apply Fin.ext
      rw [byte_val, byte_val, pow_succ, Nat.mod_mul_left_mod]
    have hd : n % 256 ^ (w + 1) / 256 = n / 256 % 256 ^ w := by
      rw [pow_succ, Nat.mul_comm, Nat.mod_mul_right_div_self]
    rw [lePut, hb, hd, lePut_mod w, lePut]

theorem lastKey_concat (g : List Ent) (e : Ent) : lastKey (g ++ [e]) = e.k := by
  rw [lastKey, List.getLast?_concat]
  rfl

theorem lastSeq_concat (g : List Ent) (e : Ent) : lastSeq (g ++ [e]) = e.seq := by
  rw [lastSeq, List.getLast?_concat]
  rfl

theorem idxs_append : ∀ (off : Nat) (gs hs : List (List Ent)),
    idxs off (gs ++ hs) = idxs off gs ++ idxs (off + (gs.flatMap blockBytes).length) hs
  | off, [], hs => rfl
  | off, g :: gs, hs => by
    rw [List.cons_append, idxs, idxs, idxs_append (off + (blockBytes g).length) gs hs, List.flatMap_cons,
      length_append, Nat.add_assoc]
    rfl

@[simp] theorem length_idxs : ∀ (off : Nat) (gs : List (List Ent)), (idxs off gs).length = gs.length
  | _, [] => rfl
  | off, g :: gs => by rw [idxs, List.length_cons, List.length_cons, length_idxs]

/-- The file and the index are what the closed blocks give after `hd`, and the open block what its entries give. -/
structure Laid (hd : List Byte) (b : Builder) (gs : List (List Ent)) (cur : List Ent) : Prop where
  file : b.file = hd ++ gs.flatMap blockBytes
  index : b.index = (idxs hd.length gs).flatMap putIdxEntry
  block : b.block = cur.flatMap putEnt
  count : b.nblockEnts = cur.length % 2 ^ 32
  closed : ∀ g ∈ gs, g.length % 2 ^ 32 ≠ 0
  last : cur ≠ [] → b.last = lastKey cur ∧ b.lastseq = lastSeq cur

theorem Laid.put {b : Builder} (h : Laid hd b gs cur) (e : Ent) : Laid hd (bldPut b e) gs (cur ++ [e]) where
  file := h.file
  index := h.index
  block := by
    rw [bldPut, h.block, List.flatMap_append]
    simp
  count := by
    rw [bldPut, h.count, length_append, List.length_singleton, Nat.mod_add_mod]
  closed := h.closed
  last := fun _ => by
    rw [lastKey_concat, lastSeq_concat]
    exact ⟨rfl, rfl⟩

theorem Laid.finish {b : Builder} (h : Laid hd b gs cur) :
    if cur.length % 2 ^ 32 ≠ 0 then Laid hd (bldFinishBlock b) (gs ++ [cur]) [] else bldFinishBlock b = b := by
  rw [bldFinishBlock, h.count]
  by_cases hc : cur.length % 2 ^ 32 = 0
  · rw [if_neg (not_not.2 hc), if_pos hc]
  rw [if_pos hc, if_neg hc]
  have hne : cur ≠ [] := by
    rintro rfl
    exact hc rfl
  have hblock : sealBlock b.block b.nblockEnts = blockBytes cur := by rw [h.block, h.count]; rfl
  constructor
  · show b.file ++ sealBlock b.block _ = _
    rw [← h.count, hblock, h.file, List.flatMap_append]
    simp
  · show b.index ++ putIdx b.last b.lastseq b.file.length (sealBlock b.block _).length = _
    rw [← h.count, hblock, h.index, idxs_append, List.flatMap_append, (h.last hne).1, (h.last hne).2, h.file,
      length_append]
    simp only [idxs, List.flatMap_cons, List.flatMap_nil, append_nil, putIdxEntry, putIdx]
    rw [show (2 ^ 32 : Nat) = 256 ^ 4 from rfl, lePut_mod]
  · rfl
  · rfl
  · intro g hg
    rcases mem_append.1 hg with hg | hg
    · exact h.closed g hg
    · rw [mem_singleton.1 hg]
      exact hc
  · exact fun hn => absurd rfl hn

/-! ## What a builder leaves alone -/

theorem bldSeparate_eq (b : Builder) (e : Ent) : ∃ nf f n l,
    (bldSeparate b e).1 = { b with db := { b.db with nextFile := nf }, bf := f, bnum := n, blobs := l } := by
  rw [bldSeparate]
  split_ifs
  · rw [bldBlob, bldBlobOpen]
    rcases hb : b.bf with _ | f
    · exact ⟨_, _, _, _, rfl⟩
    · exact ⟨b.db.nextFile, _, b.bnum, _, rfl⟩
  · exact ⟨b.db.nextFile, b.bf, b.bnum, _, rfl⟩
  · exact ⟨b.db.nextFile, b.bf, b.bnum, b.blobs, rfl⟩

theorem bldFinishBlock_eq (b : Builder) : ∃ f i l n,
    bldFinishBlock b = { b with file := f, index := i, block := l, nblockEnts := n } := by
  rw [bldFinishBlock]
  split_ifs
  · exact ⟨b.file, b.index, b.block, b.nblockEnts, rfl⟩
  · exact ⟨_, _, _, _, rfl⟩

theorem Laid.separate {b : Builder} (h : Laid hd b gs cur) (e : Ent) : Laid hd (bldSeparate b e).1 gs cur := by
  obtain ⟨nf, f, n, l, he⟩ := bldSeparate_eq b e
  rw [he]
  exact ⟨h.file, h.index, h.block, h.count, h.closed, h.last⟩

/-! ## The description -/

/-- The internal order: the keys ascend, and of a key's versions the sequences descend. -/
def InOrder (es : List Ent) : Prop := es.Pairwise (fun a b => entBefore b.k b.seq a.k a.seq = false)

theorem key_le {a b : Ent} (h : entBefore b.k b.seq a.k a.seq = false) : a.k ≤ b.k := by
  rw [entBefore, decide_eq_false_iff_not, not_or] at h
  exact not_lt.1 h.1

def keyCount (es : List Ent) : Nat := (es.map (·.k)).toFinset.card

structure Told (b : Builder) (es : List Ent) : Prop where
  entries : b.entries = es.length
  first : ∀ e ∈ es.head?, b.smallest = e.k ∧ b.smallSeq = e.seq
  last : ∀ e ∈ es.getLast?, b.last = e.k ∧ b.lastseq = e.seq
  hashes : b.hashes.length = keyCount es
  hashed : ∀ e ∈ es, keyHash64 e.k ∈ b.hashes

theorem keyCount_concat (es : List Ent) (e : Ent) :
    keyCount (es ++ [e]) = if e.k ∈ es.map (·.k) then keyCount es else keyCount es + 1 := by
  have hins : ((es ++ [e]).map (·.k)).toFinset = insert e.k (es.map (·.k)).toFinset := by
    ext a
    simp
  rw [keyCount, hins]
  split_ifs with hk
  · rw [Finset.insert_eq_of_mem (List.mem_toFinset.2 hk)]
    rfl
  · rw [Finset.card_insert_of_notMem (fun h => hk (List.mem_toFinset.1 h))]
    rfl

theorem InOrder.key_mem {es : List Ent} {l : Ent} (h : InOrder (es ++ [e])) (hl : es.getLast? = some l) :
    e.k ∈ es.map (·.k) ↔ l.k = e.k := by
  obtain ⟨ys, rfl⟩ := List.getLast?_eq_some_iff.1 hl
  obtain ⟨hes, -, hlt⟩ := List.pairwise_append.1 h
  constructor
  · intro hm
    obtain ⟨a, ha, hk⟩ := mem_map.1 hm
    have hle : l.k ≤ e.k := key_le (hlt l (by simp) e (by simp))
    have hal : a.k ≤ l.k := by
      rcases mem_append.1 ha with ha | ha
      · exact key_le ((List.pairwise_append.1 hes).2.2 a ha l (by simp))
      · rw [mem_singleton.1 ha]
    exact le_antisymm hle (hk ▸ hal)
  · intro hk
    rw [← hk]
    exact mem_map.2 ⟨l, by simp, rfl⟩

theorem Told.put {b : Builder} {es : List Ent} (h : Told b es) {x : Ent} (ho : InOrder (es ++ [e])) (hk : x.k = e.k)
    (hs : x.seq = e.seq) : Told (bldPut b x) (es ++ [e]) := by
  have hzero : b.entries = 0 ↔ es = [] := by rw [h.entries, List.length_eq_zero_iff]
  have hnew : (b.entries = 0 ∨ b.last ≠ e.k) ↔ e.k ∉ es.map (·.k) := by
    rw [hzero]
    rcases List.eq_nil_or_concat es with rfl | ⟨ys, l, rfl⟩
    · simp
    · rw [List.concat_eq_append] at h ho ⊢
      have hl : (ys ++ [l]).getLast? = some l := by simp
      rw [ho.key_mem hl, (h.last l hl).1]
      simp
  constructor
  · rw [length_append, List.length_singleton, ← h.entries]
    rfl
  · intro a ha
    by_cases hn : es = []
    · subst hn
      cases ha
      exact ⟨(if_pos (hzero.2 rfl)).trans hk, (if_pos (hzero.2 rfl)).trans hs⟩
    · rw [List.head?_append_of_ne_nil _ hn] at ha
      have hz : ¬ b.entries = 0 := fun hz => hn (hzero.1 hz)
      obtain ⟨h₁, h₂⟩ := h.first a ha
      exact ⟨(if_neg hz).trans h₁, (if_neg hz).trans h₂⟩
  · intro a ha
    rw [List.getLast?_concat] at ha
    cases ha
    exact ⟨hk, hs⟩
  · rw [keyCount_concat, ← h.hashes]
    show (if b.entries = 0 ∨ b.last ≠ x.k then b.hashes ++ [keyHash64 x.k] else b.hashes).length = _
    rw [hk]
    by_cases hm : e.k ∈ es.map (·.k)
    · rw [if_pos hm, if_neg (fun hc => hnew.1 hc hm)]
    · rw [if_neg hm, if_pos (hnew.2 hm), length_append, List.length_singleton]
  · intro a ha
    show keyHash64 a.k ∈ if b.entries = 0 ∨ b.last ≠ x.k then b.hashes ++ [keyHash64 x.k] else b.hashes
    rw [hk]
    by_cases hm : e.k ∈ es.map (·.k)
    · rw [if_neg (fun hc => hnew.1 hc hm)]
      rcases mem_append.1 ha with ha | ha
      · exact h.hashed a ha
      · obtain ⟨a', ha', hka⟩ := mem_map.1 hm
        rw [mem_singleton.1 ha, ← hka]
        exact h.hashed a' ha'
    · rw [if_pos (hnew.2 hm)]
      rcases mem_append.1 ha with ha | ha
      · exact List.mem_append_left _ (h.hashed a ha)
      · rw [mem_singleton.1 ha]
        exact List.mem_append_right _ (mem_singleton.2 rfl)

theorem Told.separate {b : Builder} {es : List Ent} (h : Told b es) (e : Ent) : Told (bldSeparate b e).1 es := by
  obtain ⟨nf, f, n, l, he⟩ := bldSeparate_eq b e
  rw [he]
  exact ⟨h.entries, h.first, h.last, h.hashes, h.hashed⟩

theorem Told.finish {b : Builder} {es : List Ent} (h : Told b es) : Told (bldFinishBlock b) es := by
  obtain ⟨f, i, l, n, he⟩ := bldFinishBlock_eq b
  rw [he]
  exact ⟨h.entries, h.first, h.last, h.hashes, h.hashed⟩

/-! ## Long values -/

/-- The number of a builder's own blob file. -/
def Db.own (db : Db) : Nat := db.nextFile + 1

/-- The blob file an entry points into once it is written, and the bytes it points at. -/
def Db.points (db : Db) (e : Ent) : Option (Nat × Nat) :=
  if db.separates e then some (db.own, blobRec e.v.length)
  else if e.type = TYPE_BLOB ∧ e.v.length = BLOB_PTR then some (leNat (e.v.take 8),
    blobRec (leNat ((e.v.drop 16).take 4)))
  else none

def Db.covered (db : Db) (num : Nat) (e : Ent) : Nat :=
  match db.points e with
  | some (n, s) => if n = num then s else 0
  | none => 0

def Db.covers (db : Db) (num : Nat) (es : List Ent) : Nat := (es.map (db.covered num)).sum

def Db.pointsInto (db : Db) (num : Nat) (es : List Ent) : Prop := ∃ e ∈ es, (db.points e).map (·.1) = some num

def bytesIn (num : Nat) (l : List (Nat × Nat)) : Nat := ((l.find? (fun x => x.1 = num)).map (·.2)).getD 0

theorem bytesIn_bldRef (num n m : Nat) : ∀ l : List (Nat × Nat),
    bytesIn m (bldRef num n l) = if m = num then (bytesIn num l + n) % U64 else bytesIn m l
  | [] => by
    by_cases h : m = num
    · subst h
      simp [bldRef, bytesIn]
    · simp [bldRef, bytesIn, h, Ne.symm h]
  | (a, s) :: l => by
    have ih := bytesIn_bldRef num n m l
    rw [bldRef]
    by_cases ha : a = num
    · subst ha
      by_cases h : m = a
      · subst h
        simp [bytesIn]
      · simp [bytesIn, h, Ne.symm h]
    · rw [if_neg ha]
      by_cases hm : a = m
      · subst hm
        simp [bytesIn, ha]
      · have hcons : ∀ l' : List (Nat × Nat), bytesIn m ((a, s) :: l') = bytesIn m l' := by
          intro l'
          rw [bytesIn, List.find?_cons_of_neg (by simpa using hm)]
          rfl
        have hnum : bytesIn num ((a, s) :: l) = bytesIn num l := by
          rw [bytesIn, List.find?_cons_of_neg (by simpa using ha)]
          rfl
        rw [hcons, hcons, hnum, ih]

theorem bldRef_names (num n : Nat) : ∀ l : List (Nat × Nat),
    (bldRef num n l).map (·.1) = if num ∈ l.map (·.1) then l.map (·.1) else l.map (·.1) ++ [num]
  | [] => rfl
  | (a, s) :: l => by
    rw [bldRef]
    by_cases ha : a = num
    · rw [if_pos ha, if_pos (by simp [ha])]
      rfl
    · have hiff : num ∈ ((a, s) :: l).map (·.1) ↔ num ∈ l.map (·.1) := by simp [Ne.symm ha]
      rw [if_neg ha, List.map_cons, bldRef_names num n l]
      by_cases hm : num ∈ l.map (·.1)
      · rw [if_pos hm, if_pos (hiff.2 hm)]
        rfl
      · rw [if_neg hm, if_neg (fun h => hm (hiff.1 h))]
        rfl

/-- An entry as it is stored: a long value's place is in the bytes of the blob file. -/
structure Kept (db : Db) (f : List Byte) (e x : Ent) : Prop where
  key : x.k = e.k
  seq : x.seq = e.seq
  apart : db.separates e → x.type = TYPE_BLOB ∧ ∃ p q, f = p ++ ((List.replicate SEAL (byte 0) ++ e.v) ++ q) ∧
    FHDR ≤ p.length ∧ x.v = putPtr db.own p.length e.v.length (crc32c (List.replicate SEAL (byte 0) ++ e.v))
  inline : ¬ db.separates e → x = e

theorem Kept.grow {db : Db} {f : List Byte} {x : Ent} (h : Kept db f e x) (r : List Byte) : Kept db (f ++ r) e x := by
  refine ⟨h.key, h.seq, fun hs => ?_, h.inline⟩
  obtain ⟨ht, p, q, hf, hp, hv⟩ := h.apart hs
  exact ⟨ht, p, q ++ r, by rw [hf]; simp only [append_assoc], hp, hv⟩

structure Apart (db : Db) (b : Builder) (es st : List Ent) : Prop where
  identity : b.db.identity = db.identity
  target : b.db.block = db.block
  vsep : b.db.vsep = db.vsep
  num : b.num = db.nextFile
  unopened : b.bf = none → b.db.nextFile = db.own ∧ b.bnum = 0 ∧ ∀ e ∈ es, ¬ db.separates e
  opened : ∀ f, b.bf = some f → b.bnum = db.own ∧ ∃ body, f = fhdrBuild db.identity FK_BLOB db.own ++ body
  stored : List.Forall₂ (Kept db (b.bf.getD [])) es st
  names : (b.blobs.map (·.1)).Nodup
  named : ∀ num, num ∈ b.blobs.map (·.1) ↔ db.pointsInto num es
  bytes : ∀ num, bytesIn num b.blobs = db.covers num es % U64

section Separate

variable {db : Db} {b : Builder} {es st : List Ent}

theorem length_fhdrBytes {identity : List Byte} (hi : identity.length = 16) (kind num : Nat) :
    (fhdrBytes identity kind num).length = 60 := by
  have hm : GS_MAGIC.length = 8 := by decide
  simp [fhdrBytes, hi, hm]

theorem length_fhdrBuild {identity : List Byte} (hi : identity.length = 16) (kind num : Nat) :
    (fhdrBuild identity kind num).length = FHDR := by
  rw [fhdrBuild, length_append, length_fhdrBytes hi, length_lePut]
  rfl

theorem Apart.blobOpen (h : Apart db b es st) : ∃ f, bldBlobOpen b = ({ b with
    db := { b.db with nextFile := (bldBlobOpen b).1.db.nextFile }, bnum := db.own }, f) ∧
      (∃ body, f = fhdrBuild db.identity FK_BLOB db.own ++ body) ∧ List.Forall₂ (Kept db f) es st := by
  rw [bldBlobOpen]
  rcases hb : b.bf with _ | f
  · obtain ⟨hn, -, hes⟩ := h.unopened hb
    refine ⟨fhdrBuild db.identity FK_BLOB db.own, ?_, ⟨[], (append_nil _).symm⟩, ?_⟩
    · dsimp only
      rw [hn, h.identity]
    · have hst := h.stored
      rw [hb] at hst
      exact hst.imp (fun _ _ hk => hk.grow _)
  · obtain ⟨hn, body⟩ := h.opened f hb
    refine ⟨f, ?_, body, ?_⟩
    · dsimp only
      rw [← hn, ← hb]
    · have hst := h.stored
      rw [hb] at hst
      exact hst

theorem covers_concat (num : Nat) (e : Ent) : db.covers num (es ++ [e]) = db.covers num es + db.covered num e := by
  simp [Db.covers]

theorem pointsInto_concat (num : Nat) (e : Ent) :
    db.pointsInto num (es ++ [e]) ↔ db.pointsInto num es ∨ (db.points e).map (·.1) = some num := by
  simp [Db.pointsInto, or_and_right, exists_or]

theorem blobs_ref {l : List (Nat × Nat)} {n s : Nat} (hp : db.points e = some (n, s)) (names : (l.map (·.1)).Nodup)
    (named : ∀ num, num ∈ l.map (·.1) ↔ db.pointsInto num es) (bytes : ∀ num, bytesIn num l = db.covers num es % U64) :
    ((bldRef n s l).map (·.1)).Nodup ∧ (∀ num, num ∈ (bldRef n s l).map (·.1) ↔ db.pointsInto num (es ++ [e])) ∧
      ∀ num, bytesIn num (bldRef n s l) = db.covers num (es ++ [e]) % U64 := by
  refine ⟨?_, fun num => ?_, fun num => ?_⟩
  · rw [bldRef_names]
    split_ifs with hm
    · exact names
    · exact List.nodup_append.2 ⟨names, List.nodup_singleton n, fun a ha b hb => by
        rintro rfl
        rw [mem_singleton.1 hb] at ha
        exact hm ha⟩
  · rw [pointsInto_concat, ← named num, bldRef_names, hp]
    by_cases hm : n ∈ l.map (·.1)
    · rw [if_pos hm]
      constructor
      · exact .inl
      · rintro (h | h)
        · exact h
        · cases h
          exact hm
    · rw [if_neg hm, mem_append, mem_singleton]
      simp [eq_comm]
  · rw [bytesIn_bldRef, covers_concat, Db.covered, hp]
    dsimp only
    by_cases hn : num = n
    · rw [if_pos hn, if_pos hn.symm, bytes, ← hn, Nat.mod_add_mod]
    · rw [if_neg hn, if_neg (Ne.symm hn), bytes, Nat.add_zero]

theorem Apart.separate (h : Apart db b es st) (hi : db.identity.length = 16) (e : Ent) :
    Apart db (bldSeparate b e).1 (es ++ [e]) (st ++ [(bldSeparate b e).2]) := by
  have hsep : b.db.separates e ↔ db.separates e := by
    rw [Db.separates, h.vsep]
    rfl
  have hself : ¬ db.separates e → ∀ f, Kept db f e e := fun hn f => ⟨rfl, rfl, fun hs => absurd hs hn, fun _ => rfl⟩
  rw [bldSeparate]
  by_cases hs : db.separates e
  · rw [if_pos (hsep.2 hs), bldBlob]
    obtain ⟨f, ho, ⟨body, hf⟩, hst⟩ := h.blobOpen
    rw [ho]
    dsimp only
    have hp : db.points e = some (db.own, blobRec e.v.length) := if_pos hs
    obtain ⟨h₁, h₂, h₃⟩ := blobs_ref hp h.names h.named h.bytes
    refine ⟨h.identity, h.target, h.vsep, h.num, fun hn => (by cases hn), ?_, ?_, h₁, h₂, h₃⟩
    · intro g hg
      cases hg
      exact ⟨rfl, _, by rw [hf, append_assoc]⟩
    · refine List.rel_append (hst.imp (fun _ _ hk => hk.grow _)) (.cons ?_ .nil)
      refine ⟨rfl, rfl, fun _ => ⟨rfl, f, [], by rw [append_nil]; rfl, ?_, rfl⟩, fun hn => absurd hs hn⟩
      rw [hf, length_append, length_fhdrBuild hi]
      omega
  rw [if_neg (fun hc => hs (hsep.1 hc))]
  have hrest : ∀ l, (l.map (·.1)).Nodup → (∀ num, num ∈ l.map (·.1) ↔ db.pointsInto num (es ++ [e])) →
      (∀ num, bytesIn num l = db.covers num (es ++ [e]) % U64) →
      Apart db { b with blobs := l } (es ++ [e]) (st ++ [e]) := by
    intro l h₁ h₂ h₃
    refine ⟨h.identity, h.target, h.vsep, h.num, fun hn => ?_, h.opened, ?_, h₁, h₂, h₃⟩
    · obtain ⟨h₄, h₅, h₆⟩ := h.unopened hn
      refine ⟨h₄, h₅, fun a ha => ?_⟩
      rcases mem_append.1 ha with ha | ha
      · exact h₆ a ha
      · rw [mem_singleton.1 ha]
        exact hs
    · exact List.rel_append h.stored (.cons (hself hs _) .nil)
  by_cases hb : e.type = TYPE_BLOB ∧ e.v.length = BLOB_PTR
  · rw [if_pos hb]
    have hp : db.points e = some (leNat (e.v.take 8), blobRec (leNat ((e.v.drop 16).take 4))) :=
      (if_neg hs).trans (if_pos hb)
    obtain ⟨h₁, h₂, h₃⟩ := blobs_ref hp h.names h.named h.bytes
    exact hrest _ h₁ h₂ h₃
  · rw [if_neg hb]
    have hp : db.points e = none := (if_neg hs).trans (if_neg hb)
    refine hrest b.blobs h.names (fun num => ?_) (fun num => ?_)
    · rw [pointsInto_concat, ← h.named num, hp]
      simp
    · rw [covers_concat, Db.covered, hp, h.bytes]
      rfl

theorem Apart.put (h : Apart db b es st) (x : Ent) : Apart db (bldPut b x) es st :=
  ⟨h.identity, h.target, h.vsep, h.num, h.unopened, h.opened, h.stored, h.names, h.named, h.bytes⟩

theorem Apart.finish (h : Apart db b es st) : Apart db (bldFinishBlock b) es st := by
  obtain ⟨f, i, l, n, he⟩ := bldFinishBlock_eq b
  rw [he]
  exact ⟨h.identity, h.target, h.vsep, h.num, h.unopened, h.opened, h.stored, h.names, h.named, h.bytes⟩

end Separate

/-! ## All of the entries -/

def bodySize (g : List Ent) : Nat := (g.flatMap putEnt).length

structure Making (db : Db) (b : Builder) (es : List Ent) (gs : List (List Ent)) (cur : List Ent) : Prop where
  laid : Laid (fhdrBuild db.identity FK_SORTED db.nextFile) b gs cur
  cut : Cut bodySize db.block gs cur
  told : Told b es
  apart : Apart db b es (gs.flatten ++ cur)

variable {db : Db}

theorem making_open (db : Db) : Making db (bldOpen db) [] [] [] where
  laid := ⟨by simp [bldOpen], rfl, rfl, rfl, fun g hg => (by cases hg), fun hn => absurd rfl hn⟩
  cut := Cut.nil
  told := ⟨rfl, fun e he => (by cases he), fun e he => (by cases he), rfl, fun e he => (by cases he)⟩
  apart := ⟨rfl, rfl, rfl, rfl, fun _ => ⟨rfl, rfl, fun e he => (by cases he)⟩, fun f hf => (by cases hf), .nil, .nil,
    fun num => by simp [bldOpen, Db.pointsInto], fun num => rfl⟩

theorem bldSeparate_key (b : Builder) (e : Ent) : (bldSeparate b e).2.k = e.k ∧ (bldSeparate b e).2.seq = e.seq := by
  rw [bldSeparate]
  split_ifs <;> exact ⟨rfl, rfl⟩

theorem Making.add {b : Builder} {es : List Ent} (h : Making db b es gs cur) (hi : db.identity.length = 16)
    (ho : InOrder (es ++ [e])) : ∃ gs' cur', Making db (bldAdd b e) (es ++ [e]) gs' cur' := by
  let b₁ := (bldSeparate b e).1
  let x := (bldSeparate b e).2
  let b₂ := bldPut b₁ x
  have hadd : bldAdd b e = if b₂.db.block ≤ b₂.block.length then bldFinishBlock b₂ else b₂ := rfl
  have hlaid : Laid _ b₂ gs (cur ++ [x]) := (h.laid.separate e).put x
  have htold : Told b₂ (es ++ [e]) := (h.told.separate e).put ho (bldSeparate_key b e).1 (bldSeparate_key b e).2
  have hapart : Apart db b₂ (es ++ [e]) (gs.flatten ++ (cur ++ [x])) := by
    rw [← append_assoc]
    exact (h.apart.separate hi e).put x
  have hcut := h.cut.add x
  have hsize : b₂.db.block ≤ b₂.block.length ↔ db.block ≤ bodySize (cur ++ [x]) := by
    rw [hapart.target, hlaid.block]
    rfl
  have hfin := hlaid.finish
  rw [hadd]
  by_cases ht : db.block ≤ bodySize (cur ++ [x])
  · rw [if_pos (hsize.2 ht)]
    by_cases hm : (cur ++ [x]).length % 2 ^ 32 = 0
    · rw [if_neg (not_not.2 hm)] at hfin
      rw [if_neg (fun hc => hc.2 hm)] at hcut
      rw [hfin]
      exact ⟨gs, cur ++ [x], hlaid, hcut, htold, hapart⟩
    · rw [if_pos hm] at hfin
      rw [if_pos ⟨ht, hm⟩] at hcut
      refine ⟨gs ++ [cur ++ [x]], [], hfin, hcut, htold.finish, ?_⟩
      have hst : (gs ++ [cur ++ [x]]).flatten ++ [] = gs.flatten ++ (cur ++ [x]) := by simp
      rw [hst]
      exact hapart.finish
  · rw [if_neg (fun hc => ht (hsize.1 hc))]
    rw [if_neg (fun hc => ht hc.1)] at hcut
    exact ⟨gs, cur ++ [x], hlaid, hcut, htold, hapart⟩

theorem making_adds (hi : db.identity.length = 16) {b : Builder} {es : List Ent} {gs : List (List Ent)} {cur : List Ent}
    (h : Making db b es gs cur) : ∀ l : List Ent, InOrder (es ++ l) →
      ∃ gs' cur', Making db (l.foldl bldAdd b) (es ++ l) gs' cur'
  | [], _ => ⟨gs, cur, by rw [append_nil]; exact h⟩
  | e :: l, ho => by
    have hassoc : es ++ e :: l = (es ++ [e]) ++ l := by simp
    rw [hassoc] at ho ⊢
    obtain ⟨gs₁, cur₁, h₁⟩ := h.add hi (List.pairwise_append.1 ho).1
    exact making_adds hi h₁ l ho

/-- A builder with its last block closed: what is left in the open one are so many entries that their count is
nothing. -/
structure Made (db : Db) (b : Builder) (es : List Ent) (gs : List (List Ent)) (left : List Ent) : Prop where
  laid : Laid (fhdrBuild db.identity FK_SORTED db.nextFile) b gs left
  rest : left.length % 2 ^ 32 = 0
  cut : (left = [] ∧ gs = cuts bodySize db.block [] gs.flatten ∧ ∀ g ∈ gs, g.length < 2 ^ 32) ∨
    ((∃ g ∈ gs, 2 ^ 32 ≤ g.length) ∨ 2 ^ 32 ≤ left.length) ∧
      ∃ g ∈ cuts bodySize db.block [] (gs.flatten ++ left), 2 ^ 32 ≤ g.length
  told : Told b es
  apart : Apart db b es (gs.flatten ++ left)

theorem Making.finish {b : Builder} {es : List Ent} (h : Making db b es gs cur) :
    ∃ gs' left, Made db (bldFinishBlock b) es gs' left := by
  have hfin := h.laid.finish
  by_cases hm : cur.length % 2 ^ 32 = 0
  · rw [if_neg (not_not.2 hm)] at hfin
    rw [hfin]
    refine ⟨gs, cur, h.laid, hm, ?_, h.told, h.apart⟩
    rcases h.cut with ⟨hgs, hcur, hc⟩ | ⟨hbig, hc⟩
    · have hnil : cur = [] := by
        rw [Nat.mod_eq_of_lt hcur] at hm
        exact List.length_eq_zero_iff.1 hm
      subst hnil
      have := hc []
      simp only [append_nil] at this
      exact .inl ⟨rfl, by rw [this]; simp [cuts], hgs⟩
    · have := hc []
      rw [append_nil] at this
      exact .inr ⟨hbig, this⟩
  · rw [if_pos hm] at hfin
    have hst : (gs ++ [cur]).flatten ++ [] = gs.flatten ++ cur := by simp
    refine ⟨gs ++ [cur], [], hfin, rfl, ?_, h.told.finish, by rw [hst]; exact h.apart.finish⟩
    have hne : cur ≠ [] := by
      rintro rfl
      exact hm rfl
    rcases h.cut with ⟨hgs, hcur, hc⟩ | ⟨hbig, hc⟩
    · refine .inl ⟨rfl, ?_, fun g hg => ?_⟩
      · have := hc []
        rw [append_nil, cuts, if_neg (by simpa using hne)] at this
        rw [show (gs ++ [cur]).flatten = gs.flatten ++ cur by simp, this]
      · rcases mem_append.1 hg with hg | hg
        · exact hgs g hg
        · rw [mem_singleton.1 hg]
          exact hcur
    · have := hc []
      rw [append_nil] at this
      refine .inr ⟨.inl ?_, by rw [hst]; exact this⟩
      rcases hbig with ⟨g, hg, hle⟩ | hle
      · exact ⟨g, List.mem_append_left _ hg, hle⟩
      · exact ⟨cur, by simp, hle⟩

/-- **What a builder has when all of its entries are in blocks.** -/
theorem build_made (hi : db.identity.length = 16) {es : List Ent} (ho : InOrder es) :
    ∃ gs left, Made db (bldFinishBlock (es.foldl bldAdd (bldOpen db))) es gs left := by
  obtain ⟨gs, cur, h⟩ := making_adds hi (making_open db) es ho
  exact h.finish

end Raw
end Gbasic
