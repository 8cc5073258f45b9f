import Gbasic.LsmFile
import Gbasic.LsmSstRound
/-!
# LsmRaw — the store's files and their bytes

The store is modelled over entries and the format over bytes.  Here an entry is given the bytes it is stored as, and the
two builders of sorted files are shown to be one: with every call answered, the byte builder's file, index, filter and
record are those of the store's (`bldAdd_writes`, `bldClose_writes`), and a key passes one filter where it passes the
other (`bloomMay_raw`).
-/
namespace Gbasic
namespace Lsm

open Prog
open List (length_append flatMap_append map_append)

/-! ## Keys, values, entries -/

def IKey.raw (k : IKey) : List Byte := bePut ID_LEN k.id ++ k.key

def TXN_SEQ_BASE : Nat := U64 - 1 - 2 ^ 32

def Seq.raw : Seq → Nat
  | .real n => n
  | .run i => TXN_SEQ_BASE + i
  | .max => U64 - 1

def Val.raw : Val → List Byte
  | .bytes b => b
  | .id64 n => lePut 8 n

def BlobPtr.raw (p : BlobPtr) : List Byte :=
  Raw.putPtr p.num p.off p.val.len (Raw.crc32c (List.replicate SEAL (byte 0) ++ p.val.raw))

def EVal.rawType : EVal → Nat
  | .del => Raw.TYPE_DEL
  | .put _ => Raw.TYPE_PUT
  | .blob _ => Raw.TYPE_BLOB

def EVal.raw : EVal → List Byte
  | .del => []
  | .put v => v.raw
  | .blob p => p.raw

def Ent.raw (e : Ent) : Raw.Ent := ⟨e.key.raw, e.seq.raw, e.val.rawType, e.val.raw⟩

theorem length_raw_key (k : IKey) : k.raw.length = k.len := by
  rw [IKey.raw, length_append, length_bePut]
  rfl

theorem length_raw_val (v : Val) : v.raw.length = v.len := by
  cases v with
  | bytes b => rfl
  | id64 n => exact length_lePut 8 n

theorem length_raw_ptr (p : BlobPtr) : p.raw.length = BLOB_PTR := by
  simp [BlobPtr.raw, Raw.putPtr, BLOB_PTR]

theorem length_raw (v : EVal) : v.raw.length = v.vn := by
  cases v with
  | del => rfl
  | put v => exact length_raw_val v
  | blob p => exact length_raw_ptr p

theorem bePut_range : ∀ w v : Nat, bePut w v = (List.range w).map (fun i => byte (v / 256 ^ (w - 1 - i)))
  | 0, _ => rfl
  | w + 1, v => by
    rw [bePut, bePut_range w, List.range_succ_eq_map, List.map_cons, List.map_map]
    congr 1
    refine List.map_congr_left (fun i _ => ?_)
    dsimp only [Function.comp]
    congr 3
    omega

theorem bytes_raw (k : IKey) : k.bytes = k.raw.map (·.val) := by
  rw [IKey.bytes, IKey.raw, map_append, ID_LEN, bePut_range, List.map_map]
  rfl

/-- **A key has one hash**, of its bytes. -/
theorem keyHash64_raw (k : IKey) : Raw.keyHash64 k.raw = keyHash64 k := by
  rw [keyHash64, bytes_raw, List.foldl_map]
  rfl

theorem raw_injective {k k' : IKey} (h : k.id < U64) (h' : k'.id < U64) (he : k.raw = k'.raw) : k = k' := by
  obtain ⟨hid, hkey⟩ := List.append_inj he (by rw [length_bePut, length_bePut])
  cases k
  cases k'
  exact congrArg₂ IKey.mk (bePut_injective h h' hid) hkey

theorem length_ulebPut : ∀ n v : Nat, v < 128 ^ (n + 1) → (ulebPut (n + 1) v).length = varintLen (n + 1) v
  | 0, v, h => by
    rw [ulebPut, varintLen, if_neg (by omega), if_neg (by omega)]
    rfl
  | n + 1, v, h => by
    have hdiv : v / 128 < 128 ^ (n + 1) := Nat.div_lt_of_lt_mul (by rw [← pow_succ']; exact h)
    rw [ulebPut, varintLen]
    by_cases hlong : v / 128 ≠ 0
    · rw [if_pos hlong, if_pos (by omega), List.length_cons, length_ulebPut n _ hdiv]
    · rw [if_neg hlong, if_neg (by omega)]
      rfl

theorem length_uleb {v : Nat} (h : v < U64) : (uleb v).length = varint v :=
  length_ulebPut 9 v (lt_of_lt_of_le h (by norm_num [U64]))

structure Ent.Sized (e : Ent) : Prop where
  key : e.key.len < U64
  val : e.val.vn < U64

theorem length_putEnt {e : Ent} (h : e.Sized) : (Raw.putEnt e.raw).length = entSize e := by
  rw [Raw.putEnt, Raw.putBytes, Raw.putBytes, Ent.raw]
  simp only [length_append, List.length_cons, length_lePut, length_raw_key, length_raw, length_uleb h.key,
    length_uleb h.val]
  rw [entSize]
  omega

/-! ## Filters -/

theorem bloomBits_raw (bits h : Nat) : bloomBits bits h = (List.range 7).map (Raw.probe bits h) := by
  unfold bloomBits Raw.probe
  rfl

theorem marks_raw (hashes : List Nat) : (bloomMake hashes).set = Raw.marks hashes := by
  have hbits : bloomBits (hashes.length * 10 + 64) = fun h => (List.range 7).map
      (Raw.probe (hashes.length * 10 + 64) h) :=
    funext (bloomBits_raw _)
  rw [bloomMake, Raw.marks, Raw.bloomBits, hbits]

/-- **A key passes one filter where it passes the other.** -/
theorem bloomMay_raw (hashes : List Nat) (k : IKey) (index : List Raw.IdxEntry) :
    Raw.bloomMay ⟨index, Raw.bloomBits hashes.length, Raw.bloomBytes hashes⟩ k.raw = bloomMay (bloomMake hashes) k := by
  have hbits : (bloomMake hashes).bits = Raw.bloomBits hashes.length := rfl
  rw [Bool.eq_iff_iff, Raw.bloomMay_iff, keyHash64_raw, bloomMay, bloomBits_raw, marks_raw, hbits, List.all_map,
    List.all_eq_true]
  refine forall_congr' (fun j => ?_)
  rw [List.mem_range]
  refine imp_congr_right (fun _ => ?_)
  rw [Function.comp_apply, List.contains_iff_mem]

/-! ## The builder -/

def IdxEntry.raw (e : IdxEntry) : List Byte := Raw.putIdx e.last.raw e.lastSeq.raw e.off e.size

def counted (blobs : List (Nat × Nat)) : List (Nat × Nat) := blobs.map (fun p => (p.1, p.2 % U64))

structure Uses (db : Store) (r : Raw.Db) : Prop where
  identity : r.identity.length = 16
  block : r.block = db.cfg.block
  target : db.cfg.block < 2 ^ 32
  vsep : r.vsep = db.cfg.vsep
  nextFile : r.nextFile = db.nextFile

/-- **The byte builder has written what the store's has**: the blocks, the index, the hashes and the keys are its own,
as bytes. -/
structure Writes (db : Store) (b : Builder) (r : Raw.Builder) : Prop where
  db : Uses db r.db
  num : r.num = b.num
  off : r.off = b.off
  entries : r.entries = b.entries
  block : r.block = (b.block.map Ent.raw).flatMap Raw.putEnt
  sized : ∀ e ∈ b.block, e.Sized
  begun : b.block ≠ [] → b.entries ≠ 0
  few : b.block.length < 2 ^ 32
  count : r.nblockEnts = b.block.length
  index : r.index = b.index.flatMap IdxEntry.raw
  indexed : ∀ i ∈ b.index, i.last.len < U64
  last : b.entries ≠ 0 → r.last = b.last.raw ∧ r.lastseq = b.lastSeq.raw ∧ b.last.id < U64 ∧ b.last.len < U64
  smallest : b.entries ≠ 0 → r.smallest = b.smallest.raw ∧ r.smallSeq = b.smallSeq.raw
  hashes : r.hashes = b.hashes
  isOpen : r.bf.isSome = b.bf
  boff : ∀ f, r.bf = some f → f.length = b.boff
  bnum : r.bnum = b.bnum
  blobs : r.blobs = counted b.blobs
  nodup : (b.blobs.map (·.1)).Nodup

def Short (b : Builder) (r : Raw.Builder) : Prop := b.block = [] ∨ r.block.length < r.db.block

theorem length_block {l : List Ent} (h : ∀ e ∈ l, e.Sized) :
    ((l.map Ent.raw).flatMap Raw.putEnt).length = (l.map entSize).sum := by
  rw [List.flatMap_map, List.length_flatMap]
  exact congrArg List.sum (List.map_congr_left (fun e he => length_putEnt (h e he)))

theorem Writes.length_block {db : Store} {b : Builder} {r : Raw.Builder} (h : Writes db b r) :
    r.block.length = (b.block.map entSize).sum := by
  rw [h.block, Lsm.length_block h.sized]

theorem call_answers (o : IoOp) : Answers exec (call o) (fun _ => True) := .any (fun _ => trivial)

theorem bldWrite_answers (db : Store) (b : Builder) (p : Part) : Answers exec (bldWrite db b p)
    (fun b' => b'.rc = .ok → b.rc = .ok ∧ b' = { b with off := b.off + p.len }) := by
  refine .ite (fun hbad => .pure (fun h => absurd h hbad)) (fun hok => ?_)
  refine (call_answers _).bind (fun rc _ => .ite (fun hbad => .pure (fun h => absurd h hbad))
    (fun _ => .pure (fun _ => ?_)))
  exact ⟨not_not.1 hok, rfl⟩

theorem bldFinishBlock_writes {db : Store} {b : Builder} {r : Raw.Builder} (h : Writes db b r) :
    Answers exec (bldFinishBlock db b)
      (fun b' => b'.rc = .ok → b.rc = .ok ∧ Writes db b' (Raw.bldFinishBlock r) ∧ b'.block = [] ∧
        b'.entries = b.entries) := by
  unfold bldFinishBlock Raw.bldFinishBlock
  rw [h.count]
  refine .ite (fun hnil => .pure (fun hrc => ?_)) (fun hne => ?_)
  · have hnil := List.isEmpty_iff.1 hnil
    rw [if_pos (by rw [hnil]; rfl)]
    exact ⟨hrc, h, hnil, rfl⟩
  · have hne : b.block ≠ [] := fun hnil => hne (by rw [hnil]; rfl)
    rw [if_neg (List.length_pos_iff.2 hne).ne']
    refine (bldWrite_answers db _ _).bind (fun b' hb' => .pure (fun hrc => ?_))
    obtain ⟨hok, rfl⟩ := hb' hrc
    obtain ⟨hlast, hseq, hid, hlen⟩ := h.last (h.begun hne)
    have hsize : (Raw.sealBlock r.block b.block.length).length = blockSize b.block := by
      rw [Raw.length_sealBlock, h.length_block, blockSize]
    refine ⟨hok, ?_, rfl, rfl⟩
    exact {
      db := h.db
      num := h.num
      off := by
        show (r.file ++ _).length = b.off + blockSize b.block
        rw [length_append, hsize, ← h.off]
        rfl
      entries := h.entries
      block := rfl
      sized := fun e he => by cases he
      begun := fun hn => absurd rfl hn
      few := Nat.two_pow_pos 32
      count := rfl
      index := by
        show r.index ++ _ = (b.index ++ _).flatMap _
        rw [flatMap_append, h.index, hsize, hlast, hseq, h.off]
        simp [IdxEntry.raw]
      indexed := by
        intro i hi
        rcases List.mem_append.1 hi with hi | hi
        · exact h.indexed i hi
        · rw [List.mem_singleton.1 hi]
          exact hlen
      last := h.last
      smallest := h.smallest
      hashes := h.hashes
      isOpen := h.isOpen
      boff := h.boff
      bnum := h.bnum
      blobs := h.blobs
      nodup := h.nodup }

/-- An entry as a builder is given one: its tree's id and a pointer's number of 64 bits, a pointer's length of 32. -/
structure Ent.Storable (e : Ent) : Prop where
  sized : e.Sized
  id : e.key.id < U64
  num : ∀ p, e.val = .blob p → p.num < U64 ∧ p.val.len < 2 ^ 32

theorem length_le_block {l : List Ent} : l.length ≤ (l.map entSize).sum := by
  have hone : ∀ n ∈ l.map entSize, 1 ≤ n := by
    intro n hn
    obtain ⟨e, -, rfl⟩ := List.mem_map.1 hn
    unfold entSize
    omega
  simpa using List.length_le_sum_of_one_le _ hone

theorem Writes.room {db : Store} {b : Builder} {r : Raw.Builder} (h : Writes db b r) (hshort : Short b r) :
    b.block.length + 1 < 2 ^ 32 := by
  rcases hshort with hnil | hlt
  · rw [hnil]
    decide
  · have hle := @length_le_block b.block
    have htarget := h.db.target
    rw [h.length_block, h.db.block] at hlt
    omega

/-- The byte builder's own end of `bld_add`. -/
def finishIfFull (r : Raw.Builder) : Raw.Builder := if r.db.block ≤ r.block.length then Raw.bldFinishBlock r else r

def Builder.put (b : Builder) (e : Ent) : Builder :=
  { b with
    smallest := if b.entries = 0 then e.key else b.smallest
    smallSeq := if b.entries = 0 then e.seq else b.smallSeq
    hashes := if b.entries = 0 ∨ b.last ≠ e.key then b.hashes ++ [keyHash64 e.key] else b.hashes
    block := b.block ++ [e]
    last := e.key
    lastSeq := e.seq
    entries := b.entries + 1 }

theorem bldPut_put (db : Store) (b : Builder) (e : Ent) : bldPut db b e =
    if db.cfg.block ≤ ((b.put e).block.map entSize).sum then bldFinishBlock db (b.put e) else pure (b.put e) := by
  unfold bldPut Builder.put
  by_cases h0 : b.entries = 0 <;> by_cases hl : b.last = e.key <;> simp [h0, hl]

theorem Writes.put {db : Store} {b : Builder} {r : Raw.Builder} {e : Ent} (h : Writes db b r)
    (hroom : b.block.length + 1 < 2 ^ 32) (hsized : e.Sized) (hid : e.key.id < U64) :
    Writes db (b.put e) (Raw.bldPut r e.raw) where
  db := h.db
  num := h.num
  off := h.off
  entries := congrArg (· + 1) h.entries
  block := by
    show r.block ++ _ = ((b.block ++ [e]).map Ent.raw).flatMap Raw.putEnt
    rw [h.block, map_append, flatMap_append]
    simp
  sized := by
    intro x hx
    rcases List.mem_append.1 hx with hx | hx
    · exact h.sized x hx
    · rw [List.mem_singleton.1 hx]
      exact hsized
  begun := fun _ => Nat.succ_ne_zero _
  few := by
    show (b.block ++ [e]).length < _
    rw [length_append]
    exact hroom
  count := by
    show (r.nblockEnts + 1) % 2 ^ 32 = (b.block ++ [e]).length
    rw [h.count, Nat.mod_eq_of_lt hroom, length_append]
    rfl
  index := h.index
  indexed := h.indexed
  last := fun _ => ⟨rfl, rfl, hid, hsized.key⟩
  smallest := by
    intro _
    show (if r.entries = 0 then _ else _) = _ ∧ (if r.entries = 0 then _ else _) = _
    rw [h.entries]
    show _ = (if b.entries = 0 then e.key else b.smallest).raw ∧ _ = (if b.entries = 0 then e.seq else b.smallSeq).raw
    by_cases h0 : b.entries = 0
    · simp only [if_pos h0]
      exact ⟨rfl, rfl⟩
    · simp only [if_neg h0]
      exact h.smallest h0
  hashes := by
    have hnew : r.entries = 0 ∨ r.last ≠ e.raw.k ↔ b.entries = 0 ∨ b.last ≠ e.key := by
      rw [h.entries]
      by_cases h0 : b.entries = 0
      · exact iff_of_true (Or.inl h0) (Or.inl h0)
      · obtain ⟨hlast, -, hlid, -⟩ := h.last h0
        have hsame : r.last = e.raw.k ↔ b.last = e.key := by
          rw [hlast]
          exact ⟨fun he => raw_injective hlid hid he, fun he => by rw [he]; rfl⟩
        exact or_congr Iff.rfl (not_congr hsame)
    show (if r.entries = 0 ∨ r.last ≠ e.raw.k then r.hashes ++ [Raw.keyHash64 e.key.raw] else r.hashes) = _
    rw [if_congr hnew rfl rfl, h.hashes, keyHash64_raw]
    rfl
  isOpen := h.isOpen
  boff := h.boff
  bnum := h.bnum
  blobs := h.blobs
  nodup := h.nodup

theorem bldPut_writes {db : Store} {b : Builder} {r : Raw.Builder} {e : Ent} (h : Writes db b r) (hshort : Short b r)
    (hsized : e.Sized) (hid : e.key.id < U64) : Answers exec (bldPut db b e)
      (fun b' => b'.rc = .ok → b.rc = .ok ∧ Writes db b' (finishIfFull (Raw.bldPut r e.raw)) ∧
        Short b' (finishIfFull (Raw.bldPut r e.raw))) := by
  have hput := h.put (h.room hshort) hsized hid
  have hfull : (Raw.bldPut r e.raw).db.block ≤ (Raw.bldPut r e.raw).block.length ↔
      db.cfg.block ≤ ((b.put e).block.map entSize).sum := by
    rw [hput.length_block, hput.db.block]
  rw [bldPut_put]
  refine .ite (fun hle => ?_) (fun hlt => .pure (fun hrc => ⟨hrc, ?_⟩))
  · rw [finishIfFull, if_pos (hfull.2 hle)]
    refine (bldFinishBlock_writes hput).post (fun b' hb' hrc => ?_)
    obtain ⟨hok, hw, hnil, -⟩ := hb' hrc
    exact ⟨hok, hw, Or.inl hnil⟩
  · rw [finishIfFull, if_neg (not_congr hfull |>.2 hlt)]
    exact ⟨hput, Or.inr (not_le.1 (not_congr hfull |>.2 hlt))⟩

/-! ## Long values -/

theorem bldRef_cons {l : List (Nat × Nat)} {m s : Nat} (num n : Nat) (hm : m ∉ l.map (·.1)) :
    bldRef ((m, s) :: l) num n = if m = num then (m, s + n) :: l else (m, s) :: bldRef l num n := by
  by_cases hnum : m = num
  · subst hnum
    have hrest : l.map (fun p => if p.1 = m then (p.1, p.2 + n) else p) = l := by
      refine (List.map_congr_left (fun p hp => if_neg (fun he => hm ?_))).trans (List.map_id' l)
      exact List.mem_map.2 ⟨p, hp, he⟩
    simp [bldRef, hrest]
  · unfold bldRef
    by_cases hany : l.any (fun p => p.1 = num) = true
    · simp [hnum, hany]
    · simp [hnum, hany]

/-- **What a blob file is pointed at by** is counted alike. -/
theorem bldRef_raw (num n : Nat) : ∀ {l : List (Nat × Nat)}, (l.map (·.1)).Nodup →
    Raw.bldRef num n (counted l) = counted (bldRef l num n) ∧ ((bldRef l num n).map (·.1)).Nodup ∧
      ∀ m ∉ l.map (·.1), m ≠ num → m ∉ (bldRef l num n).map (·.1)
  | [], _ => ⟨rfl, by simp [bldRef], fun m _ hm => by simpa [bldRef] using hm⟩
  | (m, s) :: l, h => by
    rw [List.map_cons, List.nodup_cons] at h
    obtain ⟨hcount, hnodup, hnew⟩ := bldRef_raw num n h.2
    rw [bldRef_cons num n h.1, counted, List.map_cons, Raw.bldRef]
    by_cases hnum : m = num
    · rw [if_pos hnum, if_pos hnum]
      refine ⟨?_, List.nodup_cons.2 h, fun x hx _ => hx⟩
      rw [Nat.mod_add_mod]
      rfl
    · rw [if_neg hnum, if_neg hnum]
      refine ⟨congrArg _ hcount, List.nodup_cons.2 ⟨hnew m h.1 hnum, hnodup⟩, fun x hx hne => ?_⟩
      rw [List.map_cons, List.mem_cons, not_or] at hx ⊢
      exact ⟨hx.1, hnew x hx.2 hne⟩

def blobOpened (r : Raw.Builder) : Raw.Builder := { (Raw.bldBlobOpen r).1 with bf := some (Raw.bldBlobOpen r).2 }

theorem bldBlobOpen_writes {db : Store} {b : Builder} {r : Raw.Builder} (h : Writes db b r) (hshort : Short b r) :
    Answers exec (bldBlobOpen db b) (fun a => a.2.2 = .ok →
      a.2.1.rc = b.rc ∧ Writes a.1 a.2.1 (blobOpened r) ∧ Short a.2.1 (blobOpened r)) := by
  refine .ite (fun hbf => .pure (fun _ => ?_)) (fun hbf => ?_)
  · obtain ⟨f, hf⟩ := Option.isSome_iff_exists.1 (h.isOpen.trans hbf)
    have hsame : blobOpened r = r := by
      unfold blobOpened Raw.bldBlobOpen
      rw [hf]
      dsimp only
      rw [← hf]
    rw [hsame]
    exact ⟨rfl, h, hshort⟩
  · have hnone : r.bf = none := Option.not_isSome_iff_eq_none.1 (fun hs => hbf (h.isOpen.symm.trans hs))
    have hsame : blobOpened r = { r with
        bnum := r.db.nextFile
        db := { r.db with nextFile := r.db.nextFile + 1 }
        bf := some (Raw.fhdrBuild r.db.identity Raw.FK_BLOB r.db.nextFile) } := by
      unfold blobOpened Raw.bldBlobOpen
      rw [hnone]
    refine (call_answers _).bind (fun rc _ => .ite (fun hbad => ?_) (fun _ => ?_))
    · exact (call_answers _).bind (fun _ _ => .pure (fun hok => absurd hok hbad))
    refine (call_answers _).bind (fun rc _ => .ite (fun hbad => ?_) (fun _ => ?_))
    · exact (call_answers _).bind (fun _ _ => .pure (fun hok => absurd hok hbad))
    refine (call_answers _).bind (fun rc _ => .ite (fun hbad => .pure (fun hok => absurd hok hbad))
      (fun _ => .pure (fun _ => ?_)))
    rw [hsame]
    refine ⟨rfl, ?_, hshort⟩
    exact { h with
      db := ⟨h.db.identity, h.db.block, h.db.target, h.db.vsep, congrArg (· + 1) h.db.nextFile⟩
      isOpen := rfl
      boff := by
        intro f hf
        rw [← Option.some.inj hf]
        exact Raw.length_fhdrBuild h.db.identity _ _
      bnum := h.db.nextFile }

theorem bldBlob_writes {db : Store} {b : Builder} {r : Raw.Builder} (h : Writes db b r) (hshort : Short b r) (v : Val) :
    Answers exec (bldBlob db b v) (fun a => a.2.2.1 = .ok →
      a.2.1.rc = b.rc ∧ Writes a.1 a.2.1 (Raw.bldBlob r v.raw).1 ∧ Short a.2.1 (Raw.bldBlob r v.raw).1 ∧
        (Raw.bldBlob r v.raw).2 = a.2.2.2.raw) := by
  refine (bldBlobOpen_writes h hshort).bind (fun ⟨db, b', rc⟩ hb' => ?_)
  refine .ite (fun hbad => .pure (fun hok => absurd hok hbad)) (fun hok => ?_)
  obtain ⟨hrc, hw, hshort⟩ := hb' (not_not.1 hok)
  refine (call_answers _).bind (fun rc _ => .ite (fun hbad => .pure (fun hok => absurd hok hbad)) (fun _ => ?_))
  refine (call_answers _).bind (fun rc _ => .ite (fun hbad => .pure (fun hok => absurd hok hbad))
    (fun _ => .pure (fun _ => ?_)))
  obtain ⟨hcount, hnodup, -⟩ := bldRef_raw b'.bnum (BLOB_REC v.len) hw.nodup
  have hoff : (Raw.bldBlobOpen r).2.length = b'.boff := hw.boff _ rfl
  have hbnum : (Raw.bldBlobOpen r).1.bnum = b'.bnum := hw.bnum
  have hblobs : (Raw.bldBlobOpen r).1.blobs = counted b'.blobs := hw.blobs
  have hlen : ((Raw.bldBlobOpen r).2 ++ (List.replicate SEAL (byte 0) ++ v.raw)).length = b'.boff + BLOB_REC v.len := by
    rw [length_append, hoff, length_append, List.length_replicate, length_raw_val, BLOB_REC]
    omega
  refine ⟨hrc, ?_, hshort, ?_⟩
  · exact { hw with
      boff := by
        intro f hf
        rw [← Option.some.inj hf]
        exact hlen
      blobs := by
        show Raw.bldRef (Raw.bldBlobOpen r).1.bnum (Raw.blobRec v.raw.length) (Raw.bldBlobOpen r).1.blobs = _
        rw [hbnum, hblobs, length_raw_val]
        exact hcount
      nodup := hnodup }
  · show Raw.putPtr (Raw.bldBlobOpen r).1.bnum (Raw.bldBlobOpen r).2.length v.raw.length _ = _
    rw [hbnum, hoff, length_raw_val]
    rfl

/-! ## Entries, and the file closed -/

theorem separates_raw {r : Raw.Db} {db : Store} (h : Uses db r) {e : Ent} {v : Val} (hv : e.val = .put v) :
    r.separates e.raw ↔ db.cfg.vsep ≠ 0 ∧ db.cfg.vsep ≤ v.len := by
  unfold Raw.Db.separates
  rw [h.vsep]
  show e.val.rawType = _ ∧ _ ∧ _ ≤ e.val.raw.length ↔ _
  rw [hv]
  show Raw.TYPE_PUT = _ ∧ _ ∧ _ ≤ v.raw.length ↔ _
  rw [length_raw_val]
  exact and_iff_right rfl

/-- What a pointer says of its blob file and of its value's length. -/
theorem raw_ptr {p : BlobPtr} (hnum : p.num < U64) (hlen : p.val.len < 2 ^ 32) :
    leNat (p.raw.take 8) = p.num ∧ leNat ((p.raw.drop 16).take 4) = p.val.len := by
  obtain ⟨h₁, -, h₂, -⟩ := Raw.putPtr_get p.num p.off p.val.len (Raw.crc32c (List.replicate SEAL (byte 0) ++ p.val.raw))
  exact ⟨h₁.trans (Nat.mod_eq_of_lt hnum), h₂.trans (Nat.mod_eq_of_lt hlen)⟩

theorem bldAdd_plain {r : Raw.Builder} {e : Raw.Ent} (hs : ¬r.db.separates e)
    (hb : ¬(e.type = Raw.TYPE_BLOB ∧ e.v.length = Raw.BLOB_PTR)) : Raw.bldAdd r e = finishIfFull (Raw.bldPut r e) := by
  rw [Raw.bldAdd, Raw.bldSeparate, if_neg hs, if_neg hb]
  rfl

/-- **An entry is added to both builders alike.** -/
theorem bldAdd_writes {db : Store} {b : Builder} {r : Raw.Builder} {e : Ent} (h : Writes db b r) (hshort : Short b r)
    (he : e.Storable) : Answers exec (bldAdd db b e)
      (fun a => a.2.rc = .ok → Writes a.1 a.2 (Raw.bldAdd r e.raw) ∧ Short a.2 (Raw.bldAdd r e.raw)) := by
  have htype : e.raw.type = e.val.rawType := rfl
  unfold bldAdd
  refine .ite (fun hbad => .pure (fun hok => absurd hok hbad)) (fun _ => ?_)
  rcases hv : e.val with _ | v | p <;> rw [hv] at htype <;> dsimp only
  case del =>
    have hs : ¬r.db.separates e.raw := fun hs => absurd (htype.symm.trans hs.1) (by decide)
    rw [bldAdd_plain hs (fun hb => absurd (htype.symm.trans hb.1) (by decide))]
    refine (bldPut_writes h hshort he.sized he.id).bind (fun b' hb' => .pure (fun hrc => ?_))
    exact (hb' hrc).2
  case put =>
    refine .ite (fun hsep => ?_) (fun hsep => ?_)
    · have hraw : Raw.bldAdd r e.raw = finishIfFull (Raw.bldPut (Raw.bldBlob r v.raw).1
          ⟨e.key.raw, e.seq.raw, Raw.TYPE_BLOB, (Raw.bldBlob r v.raw).2⟩) := by
        rw [Raw.bldAdd, Raw.bldSeparate, if_pos ((separates_raw h.db hv).2 hsep)]
        have hval : e.raw.v = v.raw := congrArg EVal.raw hv
        rw [hval]
        rfl
      refine (bldBlob_writes h hshort v).bind (fun a hb' => ?_)
      obtain ⟨db', b', rc, p⟩ := a
      refine .ite (fun hbad => .pure (fun hok => absurd hok hbad)) (fun hok => ?_)
      obtain ⟨-, hw, hshort, hptr⟩ := hb' (not_not.1 hok)
      have hsized : Ent.Sized { e with val := .blob p } := ⟨he.sized.key, show BLOB_PTR < U64 by decide⟩
      refine (bldPut_writes hw hshort hsized he.id).bind (fun b'' hb'' => .pure (fun hrc => ?_))
      rw [hraw, hptr]
      exact (hb'' hrc).2
    · have hs : ¬r.db.separates e.raw := not_congr (separates_raw h.db hv) |>.2 hsep
      rw [bldAdd_plain hs (fun hb => absurd (htype.symm.trans hb.1) (show Raw.TYPE_PUT ≠ Raw.TYPE_BLOB by decide))]
      refine (bldPut_writes h hshort he.sized he.id).bind (fun b' hb' => .pure (fun hrc => ?_))
      exact (hb' hrc).2
  case blob =>
    obtain ⟨hnum, hlen⟩ := he.num p hv
    obtain ⟨hpnum, hplen⟩ := raw_ptr hnum hlen
    obtain ⟨hcount, hnodup, -⟩ := bldRef_raw p.num (BLOB_REC p.val.len) h.nodup
    have hval : e.raw.v = p.raw := congrArg EVal.raw hv
    have hs : ¬r.db.separates e.raw :=
      fun hs => absurd (htype.symm.trans hs.1) (show Raw.TYPE_BLOB ≠ Raw.TYPE_PUT by decide)
    have hraw : Raw.bldAdd r e.raw =
        finishIfFull (Raw.bldPut { r with blobs := Raw.bldRef p.num (BLOB_REC p.val.len) r.blobs } e.raw) := by
      rw [Raw.bldAdd, Raw.bldSeparate, if_neg hs, if_pos ⟨htype, by rw [hval]; exact length_raw_ptr p⟩, hval, hpnum,
        hplen]
      rfl
    have hw : Writes db { b with blobs := bldRef b.blobs p.num (BLOB_REC p.val.len) }
        { r with blobs := Raw.bldRef p.num (BLOB_REC p.val.len) r.blobs } :=
      { h with
        blobs := by
          show Raw.bldRef _ _ r.blobs = _
          rw [h.blobs]
          exact hcount
        nodup := hnodup }
    rw [hraw]
    refine (bldPut_writes hw hshort he.sized he.id).bind (fun b' hb' => .pure (fun hrc => ?_))
    exact (hb' hrc).2

theorem bldOpen_writes {db : Store} {rdb : Raw.Db} (h : Uses db rdb) : Answers exec (bldOpen db)
    (fun a => a.2.rc = .ok → Writes a.1 a.2 (Raw.bldOpen rdb) ∧ Short a.2 (Raw.bldOpen rdb)) := by
  unfold bldOpen
  refine (call_answers _).bind (fun rc _ => .ite (fun hbad => .pure (fun hok => absurd hok hbad)) (fun _ => ?_))
  refine (call_answers _).bind (fun rc _ => .ite (fun hbad => ?_) (fun _ => ?_))
  · exact (call_answers _).bind (fun _ _ => .pure (fun hok => absurd hok hbad))
  refine (bldWrite_answers _ _ _).bind (fun b' hb' => .pure (fun hok => ?_))
  obtain ⟨-, rfl⟩ := hb' hok
  refine ⟨?_, Or.inl rfl⟩
  exact {
    db := ⟨h.identity, h.block, h.target, h.vsep, congrArg (· + 1) h.nextFile⟩
    num := h.nextFile
    off := (Raw.length_fhdrBuild h.identity _ _).trans (Nat.zero_add FHDR).symm
    entries := rfl
    block := rfl
    sized := fun e he => by cases he
    begun := fun hne => absurd rfl hne
    few := Nat.two_pow_pos 32
    count := rfl
    index := rfl
    indexed := fun i hi => by cases hi
    last := fun h0 => absurd rfl h0
    smallest := fun h0 => absurd rfl h0
    hashes := rfl
    isOpen := rfl
    boff := fun f hf => by cases hf
    bnum := rfl
    blobs := rfl
    nodup := List.nodup_nil }

structure Describes (r : Raw.FileRec) (m : ManFile) : Prop where
  num : r.num = m.num
  size : r.size = m.size
  entries : r.entries = m.entries
  smallest : r.smallest = m.smallest.raw ∧ r.smallSeq = m.smallSeq.raw
  largest : r.largest = m.largest.raw ∧ r.largeSeq = m.largeSeq.raw
  seqOver : r.seqOver = 0 ∧ m.seqOver = none
  ownBlob : r.ownBlob = m.ownBlob
  blobs : r.blobs = counted m.blobs

theorem length_index {l : List IdxEntry} (h : ∀ i ∈ l, i.last.len < U64) (n : Nat) :
    (Raw.sealBlock (l.flatMap IdxEntry.raw) n).length = indexSize l := by
  rw [Raw.length_sealBlock, indexSize, List.length_flatMap]
  refine congrArg (fun l => List.sum l + TRAIL) (List.map_congr_left (fun i hi => ?_))
  simp only [IdxEntry.raw, Raw.putIdx, Raw.putBytes, length_append, length_lePut, length_raw_key, length_uleb (h i hi)]

theorem length_bloom (hashes : List Nat) (n : Nat) :
    (Raw.sealBlock (Raw.bloomOf hashes) n).length = bloomSize (bloomMake hashes) := by
  rw [Raw.length_sealBlock, Raw.length_bloomOf]
  rfl

theorem bldSync_answers (db : Store) (b : Builder) :
    Answers exec (bldSync db b) (fun a => a.2 = .ok → b.rc = .ok) := by
  refine .ite (fun hbad => .pure (fun hok => absurd hok hbad)) (fun hok => .any (fun _ _ => not_not.1 hok))

/-- The builder's last parts: the index, the filter and the footer. -/
theorem parts_describe {db : Store} {b : Builder} {r : Raw.Builder} (h : Writes db b r) (h0 : b.entries ≠ 0)
    (hdone : Raw.bldFinishBlock r = r) : Describes (Raw.bldClose r).fileMeta
      (({ b with off := b.off + (Part.index b.index b.entries).len + (Part.bloom (bloomMake b.hashes)).len + FOOTER } :
        Builder).meta (bloomMake b.hashes)).toManFile := by
  obtain ⟨hlast, hseq, -⟩ := h.last h0
  have hsize : (Raw.bldClose r).file.length =
      b.off + (Part.index b.index b.entries).len + (Part.bloom (bloomMake b.hashes)).len + FOOTER := by
    unfold Raw.bldClose
    rw [hdone]
    dsimp only
    rw [length_append, length_append, length_append, h.index, length_index h.indexed, h.hashes, length_bloom]
    have hoff : r.file.length = b.off := h.off
    have hfoot : ∀ a b c d e, (Raw.footBuild a b c d e).length = FOOTER := by
      intro a b c d e
      simp [Raw.footBuild, Raw.footBytes, FOOTER]
    rw [hfoot, hoff]
    show _ = b.off + indexSize b.index + bloomSize (bloomMake b.hashes) + FOOTER
    omega
  have hmeta : (Raw.bldClose r).fileMeta = {
      num := r.num
      size := (Raw.bldClose r).file.length
      entries := r.entries
      smallest := r.smallest
      smallSeq := r.smallSeq
      largest := r.last
      largeSeq := r.lastseq
      seqOver := 0
      ownBlob := r.bnum
      blobs := r.blobs } := by
    unfold Raw.bldClose
    rw [hdone]
  rw [hmeta]
  exact ⟨h.num, hsize, h.entries, h.smallest h0, ⟨hlast, hseq⟩, ⟨rfl, rfl⟩, h.bnum, h.blobs⟩

theorem bldFinishBlock_done {db : Store} {b : Builder} {r : Raw.Builder} (h : Writes db b r) (hnil : b.block = []) :
    Raw.bldFinishBlock r = r := by
  rw [Raw.bldFinishBlock, h.count, hnil]
  rfl

theorem bldClose_finish {db : Store} {b : Builder} {r : Raw.Builder} (h : Writes db b (Raw.bldFinishBlock r))
    (hnil : b.block = []) : Raw.bldClose (Raw.bldFinishBlock r) = Raw.bldClose r := by
  unfold Raw.bldClose
  rw [bldFinishBlock_done h hnil]

/-- **A file that is closed is described alike**: its size is that of its bytes. -/
theorem bldClose_writes {db : Store} {b : Builder} {r : Raw.Builder} (h : Writes db b r) : Answers exec (bldClose db b)
    (fun a => a.2.2 = .ok → ∀ fm, a.2.1 = some fm → Describes (Raw.bldClose r).fileMeta fm.toManFile) := by
  unfold bldClose
  refine (bldFinishBlock_writes h).bind (fun b₁ h₁ => ?_)
  refine (bldWrite_answers _ _ _).bind (fun b₂ h₂ => ?_)
  refine (bldWrite_answers _ _ _).bind (fun b₃ h₃ => ?_)
  refine (bldWrite_answers _ _ _).bind (fun b₄ h₄ => ?_)
  refine (bldSync_answers db b₄).bind (fun ⟨db', rc⟩ hrc => .ite (fun hdone => .pure (fun _ fm hfm => ?_))
    (fun _ => ?_))
  · obtain ⟨hrc₃, rfl⟩ := h₄ (hrc hdone.1)
    obtain ⟨hrc₂, rfl⟩ := h₃ hrc₃
    obtain ⟨hrc₁, rfl⟩ := h₂ hrc₂
    obtain ⟨-, hw, hnil, -⟩ := h₁ hrc₁
    obtain rfl := Option.some.inj hfm
    rw [← bldClose_finish hw hnil]
    exact parts_describe hw hdone.2 (bldFinishBlock_done hw hnil)
  · refine (call_answers _).bind (fun _ _ => .ite (fun _ => ?_) (fun _ => .pure (fun _ fm hfm => by cases hfm)))
    exact (call_answers _).bind (fun _ _ => .pure (fun _ fm hfm => by cases hfm))

/-- Once a write has failed, the file is not closed. -/
theorem bldClose_refused (db : Store) {b : Builder} (hbad : b.rc ≠ .ok) :
    Answers exec (bldClose db b) (fun a => a.2.2 ≠ .ok) := by
  have hfinish : Answers exec (bldFinishBlock db b) (fun b' => b'.rc ≠ .ok) :=
    .ite (fun _ => .pure hbad) (fun _ => (bldWrite_answers _ _ _).bind (fun _ h => .pure (fun hok => hbad (h hok).1)))
  unfold bldClose
  refine hfinish.bind (fun b₁ h₁ => ?_)
  refine (bldWrite_answers _ _ _).bind (fun b₂ h₂ => ?_)
  refine (bldWrite_answers _ _ _).bind (fun b₃ h₃ => ?_)
  refine (bldWrite_answers _ _ _).bind (fun b₄ h₄ => ?_)
  refine (bldSync_answers db b₄).bind (fun ⟨db', rc⟩ hrc => ?_)
  have hrc : rc ≠ .ok := fun hok => h₁ (h₂ (h₃ (h₄ (hrc hok)).1).1).1
  refine .ite (fun _ => .pure hrc) (fun _ => (call_answers _).bind (fun _ _ => ?_))
  exact .ite (fun _ => (call_answers _).bind (fun _ _ => .pure hrc)) (fun _ => .pure hrc)

/-! ## A file of its entries -/

def bldAddAll : List Ent → Store × Builder → M (Store × Builder)
  | [], a => return a
  | e :: es, a => do
    let a ← bldAdd a.1 a.2 e
    bldAddAll es a

theorem bldAddAll_writes : ∀ {es : List Ent} {a : Store × Builder} {r : Raw.Builder}, (∀ e ∈ es, e.Storable) →
    (a.2.rc = .ok → Writes a.1 a.2 r ∧ Short a.2 r) → Answers exec (bldAddAll es a)
      (fun a' => a'.2.rc = .ok → Writes a'.1 a'.2 ((es.map Ent.raw).foldl Raw.bldAdd r))
  | [], _, _, _, h => .pure (fun hrc => (h hrc).1)
  | e :: es, ⟨db, b⟩, r, hes, h => by
    have hadd : Answers exec (bldAdd db b e)
        (fun a => a.2.rc = .ok → Writes a.1 a.2 (Raw.bldAdd r e.raw) ∧ Short a.2 (Raw.bldAdd r e.raw)) := by
      by_cases hrc : b.rc = .ok
      · exact bldAdd_writes (h hrc).1 (h hrc).2 (hes e (List.mem_cons_self ..))
      · unfold bldAdd
        rw [if_pos hrc]
        exact .pure (fun hok => absurd hok hrc)
    exact hadd.bind (fun a ha => bldAddAll_writes (fun e' he' => hes e' (List.mem_cons_of_mem e he')) ha)

/-- **A file of entries is described as its bytes are**, whatever the calls answer: where the store's builder closes
one, its record is that of the byte builder's file of the same entries. -/
theorem build_writes {db : Store} {rdb : Raw.Db} (h : Uses db rdb) {es : List Ent} (hes : ∀ e ∈ es, e.Storable) :
    Answers exec (do
      let a ← bldOpen db
      let a ← bldAddAll es a
      bldClose a.1 a.2) (fun a => a.2.2 = .ok → ∀ fm, a.2.1 = some fm →
        Describes (Raw.build rdb (es.map Ent.raw)).fileMeta fm.toManFile) := by
  refine (bldOpen_writes h).bind (fun a ha => ?_)
  refine (bldAddAll_writes hes ha).bind (fun ⟨db, b⟩ hb => ?_)
  by_cases hrc : b.rc = .ok
  · exact bldClose_writes (hb hrc)
  · exact (bldClose_refused db hrc).post (fun _ hbad hok => absurd hok hbad)

end Lsm
end Gbasic
