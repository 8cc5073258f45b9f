import Gbasic.LsmSstSeek
/-!
# LsmSstRound — a sorted file reads back what was written

Entries in the internal order go into one builder, with any block target and any threshold for long values.  The file
reads back just what was written where the lengths that are kept in 32 bits fit (`Db.Fits`): a long value's, a block's,
the index's and the filter's.
-/
namespace Gbasic
namespace Raw

open Lsm (Status SEAL TRAIL FHDR FOOTER U64)
open Search
open List (length_append map_cons sum_cons mem_cons drop_left' drop_drop take_left' length_take append_nil
  map_singleton)
open List (Forall₂)

variable {e x : Ent} {g : List Ent}

/-! ## What is claimed -/

/-- A store's identity is of sixteen bytes, and there are numbers left for a file and its blob file. -/
structure Db.Ok (db : Db) : Prop where
  identity : db.identity.length = 16
  numbers : db.own < U64

/-- The file as it is in a version, with a sequence that stands for all of its entries' unless it is 0. -/
def Built.sst (c : Built) (seqOver : Nat) (f : Buffer) : Sst := ⟨{ c.fileMeta with seqOver := seqOver }, f⟩

structure Stands (db : Db) (blobs : Nat → Option Buffer) (seqOver : Nat) (e x : Ent) : Prop where
  key : x.k = e.k
  seq : x.seq = eseq seqOver e.seq
  separated : db.separates e → x.type = TYPE_BLOB ∧ valCopy db.identity blobs x = .ok e.v
  inline : ¬ db.separates e → x.type = e.type ∧ x.v = e.v

structure Described (db : Db) (es : List Ent) (r : FileRec) (size : Nat) : Prop where
  size : r.size = size
  entries : r.entries = es.length
  smallest : ∀ e ∈ es.head?, r.smallest = e.k ∧ r.smallSeq = e.seq
  largest : ∀ e ∈ es.getLast?, r.largest = e.k ∧ r.largeSeq = e.seq
  blobsOnce : (r.blobs.map (·.1)).Nodup
  blobs : ∀ num, num ∈ r.blobs.map (·.1) ↔ db.pointsInto num es
  blobBytes : ∀ num, bytesIn num r.blobs = db.covers num es

/-- The file opens, its filter answers true for every key, going through it gives the entries, a seek stands on the
first that is not before and a seek for less on the last that is before, and its record describes it. -/
structure RoundTrip (db : Db) (es : List Ent) (seqOver : Nat) (f : Buffer) (blobs : Nat → Option Buffer) : Prop where
  filter : ∃ ix, fileOpen .machine db.identity (build db es).fileMeta.num f = .ok ix ∧ ∀ e ∈ es, bloomMay ix e.k = true
  reads : ∃ st : List Ent, Forall₂ (Stands db blobs seqOver) es st ∧
    (∃ s n, (srcOf db.identity ((build db es).sst seqOver f)).seek [] (U64 - 1) = .ok s ∧ s.entries n = .ok st) ∧
    (∀ k seq, ∃ s, (srcOf db.identity ((build db es).sst seqOver f)).seek k seq = .ok s ∧
      s.here = .ok (st.find? (fun e => !entBefore e.k e.seq k seq))) ∧
    (∀ k seq, ∃ s, (srcOf db.identity ((build db es).sst seqOver f)).seekLt k seq = .ok s ∧
      s.here = .ok (st.reverse.find? (fun e => entBefore e.k e.seq k seq)))
  described : Described db es (build db es).fileMeta f.size

/-! ## When it holds -/

def Db.valueSize (db : Db) (e : Ent) : Nat := if db.separates e then BLOB_PTR else e.v.length

def Db.blockSize (db : Db) (g : List Ent) : Nat :=
  (g.map (fun e => (uleb e.k.length).length + e.k.length + 9 + (uleb (db.valueSize e)).length + db.valueSize e)).sum

def Db.blocks (db : Db) (es : List Ent) : List (List Ent) := cuts db.blockSize db.block [] es

def idxSize (g : List Ent) : Nat := (uleb (lastKey g).length).length + (lastKey g).length + 20

/-- The bytes of the filter's bits. -/
def filterSize (es : List Ent) : Nat := bloomBits (keyCount es) / 8 + 1 + TRAIL

/-- The lengths that are kept in 32 bits, and those that are kept in 64, fit. -/
structure Db.Fits (db : Db) (es : List Ent) : Prop where
  values : ∀ e ∈ es, db.separates e → e.v.length < 2 ^ 32
  blocks : ∀ g ∈ db.blocks es, db.blockSize g + TRAIL < 2 ^ 32
  index : ((db.blocks es).map idxSize).sum + TRAIL < 2 ^ 32
  filter : bloomBits (keyCount es) < 2 ^ 32
  covers : ∀ num, db.covers num es < U64

/-! ## Entries, as they came and as they are stored -/

section Kept

variable {db : Db} {f : List Byte}

theorem Kept.size (h : Kept db f e x) : (putEnt x).length =
    (uleb e.k.length).length + e.k.length + 9 + (uleb (db.valueSize e)).length + db.valueSize e := by
  have hv : x.v.length = db.valueSize e := by
    rw [Db.valueSize]
    split_ifs with hs
    · obtain ⟨-, p, q, -, -, hv⟩ := h.apart hs
      rw [hv]
      simp [putPtr, BLOB_PTR]
    · rw [h.inline hs]
  simp only [putEnt, putBytes, length_append, List.length_cons, length_lePut, h.key, hv]
  omega

theorem Kept.bodySize {g g' : List Ent} (h : Forall₂ (Kept db f) g g') : bodySize g' = db.blockSize g := by
  induction h with
  | nil => rfl
  | cons hk _ ih =>
    rw [Raw.bodySize, Db.blockSize] at ih ⊢
    rw [List.flatMap_cons, length_append, ih, hk.size, map_cons, sum_cons]

theorem Kept.keys {g' : List Ent} (h : Forall₂ (Kept db f) g g') :
    g'.map (fun e => (e.k, e.seq)) = g.map (fun e => (e.k, e.seq)) := by
  induction h with
  | nil => rfl
  | cons hk _ ih => rw [map_cons, map_cons, ih, hk.key, hk.seq]

theorem Kept.last {g' : List Ent} (h : Forall₂ (Kept db f) g g') :
    g'.getLast?.map (fun e => (e.k, e.seq)) = g.getLast?.map (fun e => (e.k, e.seq)) := by
  rw [← List.getLast?_map, ← List.getLast?_map, Kept.keys h]

theorem Kept.lastKey {g g' : List Ent} (h : Forall₂ (Kept db f) g g') : lastKey g' = lastKey g := by
  have hl := congrArg (Option.map Prod.fst) (Kept.last h)
  rw [Option.map_map, Option.map_map] at hl
  exact congrArg (Option.getD · []) hl

theorem forall₂_right {α β : Type} {R : α → β → Prop} {l : List α} {m : List β} (h : Forall₂ R l m) :
    ∀ b ∈ m, ∃ a ∈ l, R a b := by
  induction h with
  | nil => exact fun b hb => by cases hb
  | cons hr _ ih =>
    intro b hb
    rcases mem_cons.1 hb with rfl | hb
    · exact ⟨_, List.mem_cons_self .., hr⟩
    · obtain ⟨a, ha, h⟩ := ih b hb
      exact ⟨a, List.mem_cons_of_mem _ ha, h⟩

theorem forall₂_left {α β : Type} {R : α → β → Prop} {l : List α} {m : List β} (h : Forall₂ R l m) :
    ∀ a ∈ l, ∃ b ∈ m, R a b :=
  forall₂_right (R := flip R) h.flip

theorem cuts_rel {α β : Type} {R : α → β → Prop} {size : List α → Nat} {size' : List β → Nat} {target : Nat}
    (hs : ∀ l m, Forall₂ R l m → size l = size' m) : ∀ {l : List α} {m : List β} {cur : List α} {cur' : List β},
    Forall₂ R l m → Forall₂ R cur cur' →
      Forall₂ (Forall₂ R) (cuts size target cur l) (cuts size' target cur' m) := by
  intro l m cur cur' h hc
  induction h generalizing cur cur' with
  | nil =>
    rw [cuts, cuts]
    cases hc with
    | nil => exact .nil
    | cons h t => exact .cons (.cons h t) .nil
  | cons h t ih =>
    have hcur := List.rel_append hc (.cons h .nil)
    rw [cuts, cuts, hs _ _ hcur]
    split_ifs
    · exact .cons hcur (ih .nil)
    · exact ih hcur

theorem blocks_rel {es st : List Ent} (h : Forall₂ (Kept db f) es st) :
    Forall₂ (Forall₂ (Kept db f)) (db.blocks es) (cuts bodySize db.block [] st) :=
  cuts_rel (fun _ _ hk => (Kept.bodySize hk).symm) h .nil

theorem InOrder.stored {es st : List Ent} (h : Forall₂ (Kept db f) es st) (ho : InOrder es) : InOrder st := by
  induction h with
  | nil => exact .nil
  | @cons e x es st hk t ih =>
    obtain ⟨h₁, h₂⟩ := List.pairwise_cons.1 ho
    refine List.pairwise_cons.2 ⟨fun y hy => ?_, ih h₂⟩
    obtain ⟨a, ha, hka⟩ := forall₂_right t y hy
    rw [hka.key, hka.seq, hk.key, hk.seq]
    exact h₁ a ha

theorem Kept.fits (h : Kept db f e x) (he : e.Fits) : x.Fits := by
  refine ⟨by rw [h.seq]; exact he.seq, ?_⟩
  by_cases hs : db.separates e
  · rw [(h.apart hs).1]
    decide
  · rw [h.inline hs]
    exact he.type

theorem length_putIdx (gs : List (List Ent)) (off : Nat) :
    ((idxs off gs).flatMap putIdxEntry).length = (gs.map idxSize).sum := by
  induction gs generalizing off with
  | nil => rfl
  | cons g gs ih =>
    rw [idxs, List.flatMap_cons, length_append, ih, map_cons, sum_cons, putIdxEntry, putIdx, putBytes, idxSize]
    simp only [length_append, length_lePut]

theorem idxSize_rel {gs gs' : List (List Ent)} (h : Forall₂ (Forall₂ (Kept db f)) gs gs') :
    (gs'.map idxSize).sum = (gs.map idxSize).sum := by
  induction h with
  | nil => rfl
  | cons hk _ ih => rw [map_cons, map_cons, sum_cons, sum_cons, ih, idxSize, idxSize, Kept.lastKey hk]

end Kept

/-! ## A value back through its pointer -/

theorem leNat_put (w n : Nat) : leNat (lePut w n) = n % 256 ^ w := by
  rw [← lePut_mod, leNat_lePut w _ (Nat.mod_lt _ (Nat.pow_pos (by decide)))]

theorem putPtr_get (num off len crc : Nat) : leNat ((putPtr num off len crc).take 8) = num % 256 ^ 8 ∧
    leNat (((putPtr num off len crc).drop 8).take 8) = off % 256 ^ 8 ∧
    leNat (((putPtr num off len crc).drop 16).take 4) = len % 256 ^ 4 ∧
    leNat (((putPtr num off len crc).drop 20).take 4) = crc % 256 ^ 4 := by
  have h₁ : (putPtr num off len crc).drop 8 = lePut 8 off ++ (lePut 4 len ++ lePut 4 crc) :=
    drop_left' (length_lePut ..)
  have h₂ : (putPtr num off len crc).drop 16 = lePut 4 len ++ lePut 4 crc := by
    rw [show (16 : Nat) = 8 + 8 from rfl, ← drop_drop, h₁]
    exact drop_left' (length_lePut ..)
  have h₃ : (putPtr num off len crc).drop 20 = lePut 4 crc := by
    rw [show (20 : Nat) = 16 + 4 from rfl, ← drop_drop, h₂]
    exact drop_left' (length_lePut ..)
  refine ⟨?_, ?_, ?_, ?_⟩
  · rw [putPtr, take_left' (length_lePut ..), leNat_put]
  · rw [h₁, take_left' (length_lePut ..), leNat_put]
  · rw [h₂, take_left' (length_lePut ..), leNat_put]
  · rw [h₃, List.take_of_length_le (by rw [length_lePut]), leNat_put]

/-- A long value's pointer gives the value just where its length fits. -/
theorem blobRead_kept {db : Db} (hd : db.Ok) {fb : List Byte} (h : Kept db fb e x) (hs : db.separates e)
    {blobs : Nat → Option Buffer} {b : Buffer} (hb : blobs db.own = some b) (hbytes : b.bytes = fb)
    (hhd : ∃ body, fb = fhdrBuild db.identity FK_BLOB db.own ++ body) :
    valCopy db.identity blobs x = .ok e.v ↔ e.v.length < 2 ^ 32 := by
  obtain ⟨ht, p, q, hf, hp, hv⟩ := h.apart hs
  obtain ⟨body, hhd⟩ := hhd
  have hsmall := b.small
  have hF : FHDR = 64 := rfl
  have hU : U64 = 2 ^ 64 := rfl
  have hlen := congrArg List.length hf
  simp only [length_append, List.length_replicate] at hlen
  rw [hbytes] at hsmall
  let kept := List.replicate SEAL (byte 0) ++ e.v
  have hkept : kept.length = SEAL + e.v.length := by simp [kept]
  obtain ⟨h₁, h₂, h₃, h₄⟩ := putPtr_get db.own p.length e.v.length (crc32c kept)
  rw [Nat.mod_eq_of_lt (by have := hd.numbers; omega)] at h₁
  rw [Nat.mod_eq_of_lt (by omega)] at h₂
  have hc : crc32c kept < 256 ^ 4 := crc32c_lt kept
  rw [Nat.mod_eq_of_lt hc] at h₄
  rw [show (256 : Nat) ^ 4 = 2 ^ 32 from rfl] at h₃
  have hptr : x.v.length = BLOB_PTR := by
    rw [hv]
    simp [putPtr, BLOB_PTR]
  have hhdr : readExact b 0 FHDR = .ok (b.window 0 FHDR) := by
    refine if_pos ?_
    rw [Buffer.size_window, Buffer.size, hbytes]
    omega
  have hcheck : fhdrCheck db.identity FK_BLOB db.own (b.window 0 FHDR) = .ok () :=
    fhdrCheck_build hd.identity (by decide) hd.numbers
      (window_all (a := []) (y := body) (by rw [hbytes, hhd]; rfl) rfl (length_fhdrBuild hd.identity ..))
  have hmod := Nat.mod_le e.v.length (2 ^ 32)
  have hrec : blobRec (e.v.length % 2 ^ 32) ≤ kept.length := by
    rw [hkept, blobRec]
    omega
  have hwin : (b.window p.length (blobRec (e.v.length % 2 ^ 32))).bytes = kept.take (blobRec (e.v.length % 2 ^ 32)) :=
    window_take (a := p) (y := q) (by rw [hbytes, hf]) rfl hrec
  have hsize : (b.window p.length (blobRec (e.v.length % 2 ^ 32))).size = blobRec (e.v.length % 2 ^ 32) := by
    rw [Buffer.size, hwin, length_take]
    omega
  have hread : valCopy db.identity blobs x =
      if crc32c (kept.take (blobRec (e.v.length % 2 ^ 32))) ≠ crc32c kept then corrupt
      else .ok ((kept.take (blobRec (e.v.length % 2 ^ 32))).drop SEAL) := by
    rw [valCopy, if_pos ht, blobRead, if_neg (not_not.2 hptr), hv]
    dsimp only
    rw [h₁, h₂, h₃, h₄, hb]
    dsimp only
    rw [hhdr]
    simp only [bind, Except.bind]
    rw [hcheck]
    dsimp only
    rw [if_neg (by omega), readExact, if_pos hsize, ← hwin]
    rfl
  rw [hread]
  constructor
  · intro hok
    split_ifs at hok
    · cases hok
    · have hl := congrArg List.length (Except.ok.inj hok)
      rw [List.length_drop, length_take, min_eq_left hrec, blobRec] at hl
      have := Nat.mod_lt e.v.length (show 0 < 2 ^ 32 by decide)
      omega
  · intro hlt
    rw [Nat.mod_eq_of_lt hlt, List.take_of_length_le (by rw [hkept, blobRec]; omega), if_neg (not_not.2 rfl)]
    exact congrArg Except.ok (drop_left' (by simp))

/-! ## Where the lengths fit -/

section Round

variable {db : Db} {es : List Ent} {o : Nat} {f : Buffer} {blobs : Nat → Option Buffer}
  {gs : List (List Ent)} {left : List Ent}

abbrev Db.built (db : Db) (es : List Ent) : Builder := bldFinishBlock (es.foldl bldAdd (bldOpen db))

theorem described (hm : Made db (db.built es) es gs left) (hf : f.bytes = (build db es).file)
    (hc : ∀ num, db.covers num es < U64) : Described db es (build db es).fileMeta f.size where
  size := by rw [Buffer.size, hf]; rfl
  entries := hm.told.entries
  smallest := hm.told.first
  largest := hm.told.last
  blobsOnce := hm.apart.names
  blobs := hm.apart.named
  blobBytes := fun num => (hm.apart.bytes num).trans (Nat.mod_eq_of_lt (hc num))

theorem value_back (hd : db.Ok) (hm : Made db (db.built es) es gs left)
    (hb : ∀ l, (build db es).bf = some l → ∃ b, blobs db.own = some b ∧ b.bytes = l) (he : e ∈ es)
    (hk : Kept db ((db.built es).bf.getD []) e x) (hs : db.separates e) :
    valCopy db.identity blobs x = .ok e.v ↔ e.v.length < 2 ^ 32 := by
  have hbf : (build db es).bf = (db.built es).bf := rfl
  rw [hbf] at hb
  rcases hl : (db.built es).bf with _ | l
  · exact absurd hs ((hm.apart.unopened hl).2.2 e he)
  · obtain ⟨b, hbl, hbytes⟩ := hb l hl
    rw [hl] at hk
    exact blobRead_kept hd hk hs hbl hbytes (hm.apart.opened l hl).2

theorem stands_over (hd : db.Ok) (hm : Made db (db.built es) es gs left)
    (hb : ∀ l, (build db es).bf = some l → ∃ b, blobs db.own = some b ∧ b.bytes = l)
    (hv : ∀ e ∈ es, db.separates e → e.v.length < 2 ^ 32) :
    Forall₂ (Stands db blobs o) es ((gs.flatten ++ left).map (Ent.withSeq o)) := by
  rw [List.forall₂_map_right_iff]
  have hst := (List.forall₂_and_left (p := fun e => e ∈ es) _ _).2 ⟨fun e he => he, hm.apart.stored⟩
  refine hst.imp (fun e x hx => ?_)
  obtain ⟨he, hk⟩ := hx
  refine ⟨hk.key, congrArg (eseq o) hk.seq, fun hs => ⟨(hk.apart hs).1, ?_⟩, fun hs => ?_⟩
  · exact (value_back hd hm hb he hk hs).2 (hv e he hs)
  · rw [hk.inline hs]
    exact ⟨rfl, rfl⟩

theorem stored_fits (hm : Made db (db.built es) es gs left) (hfit : ∀ e ∈ es, e.Fits) : ∀ g ∈ gs, ∀ x ∈ g, x.Fits := by
  intro g hg x hx
  obtain ⟨e, he, hk⟩ := forall₂_right hm.apart.stored x
    (List.mem_append_left _ (List.mem_flatten.2 ⟨g, hg, hx⟩))
  exact hk.fits (hfit e he)

theorem window_block {identity : List Byte} {num n : Nat} {hashes : List Nat} (hi : identity.length = 16)
    (hf : f.bytes = sstBytes identity num gs n hashes) {A B : List (List Ent)} (hb : gs = A ++ g :: B) {m : Nat}
    (hm : m ≤ (blockBytes g).length) :
    (f.window (FHDR + (A.flatMap blockBytes).length) m).bytes = (blockBytes g).take m := by
  obtain ⟨y, hy⟩ : ∃ y, f.bytes = (fhdrBuild identity FK_SORTED num ++ A.flatMap blockBytes) ++
    (blockBytes g ++ y) := by
    rw [hf, sstBytes, hb, List.flatMap_append, List.flatMap_cons]
    simp only [List.append_assoc]
    exact ⟨_, rfl⟩
  refine window_take hy ?_ hm
  · rw [length_append, length_fhdrBuild hi]

theorem load_eq {m : Sst} {ix : FileIndex} {s : Src} (ho : fileOpen .machine s.identity m.fileMeta.num m.file = .ok ix)
    (hs : s.files = [m]) (i : Nat) : s.load 0 i = (do
      let ie ← member ix.index i
      let raw ← readExact m.file ie.off ie.size
      let blk ← blockRead .machine raw
      return { s with fi := 0, bi := i, blk := blk }) := by
  have hm : member s.files 0 = .ok m := by
    rw [hs]
    rfl
  rw [Src.load, hm]
  show (fileOpen .machine s.identity m.fileMeta.num m.file >>= _) = _
  rw [ho]
  rfl

/-- **A file whose lengths fit is read whole.** -/
theorem loads_of (hd : db.Ok) (hm : Made db (db.built es) es gs []) (hfit : ∀ e ∈ es, e.Fits)
    (hf : f.bytes = (build db es).file) (hsize : ∀ g ∈ gs, (blockBytes g).length < 2 ^ 32)
    (hisz : (indexBytes gs es.length).length < 2 ^ 32) (hbits : bloomBits (db.built es).hashes.length < 2 ^ 32) :
    Loads db.identity ((build db es).sst o f) gs
      ⟨idxs FHDR gs, bloomBits (db.built es).hashes.length, bloomBytes (db.built es).hashes⟩ := by
  have hnum : db.nextFile < U64 := by
    have h₁ := hd.numbers
    have h₂ : db.own = db.nextFile + 1 := rfl
    omega
  have hgfit := stored_fits hm hfit
  rw [build_file hd.identity hm] at hf
  have hopen : fileOpen .machine db.identity ((build db es).sst o f).fileMeta.num f =
      .ok ⟨idxs FHDR gs, bloomBits (db.built es).hashes.length, bloomBytes (db.built es).hashes⟩ := by
    rw [show ((build db es).sst o f).fileMeta.num = db.nextFile from hm.apart.num]
    exact fileOpen_fits hd.identity hnum hf hgfit hisz hbits
  constructor
  · exact hopen
  · rfl
  · intro A g B hb s hsi hsf
    have hg : g ∈ gs := by rw [hb]; simp
    have hlt := hsize g hg
    have hwin := window_block hd.identity hf hb (le_refl (blockBytes g).length)
    rw [List.take_length] at hwin
    have hglen : g.length < 2 ^ 32 := by
      have h₁ := length_le_flatMap g
      rw [blockBytes, length_sealBlock] at hlt
      omega
    have hidx : member (idxs FHDR gs) A.length =
        .ok ⟨lastKey g, lastSeq g, FHDR + (A.flatMap blockBytes).length, (blockBytes g).length⟩ := by
      rw [member, hb, idxs_get, Nat.mod_eq_of_lt hlt]
      rfl
    have hread : readExact f (FHDR + (A.flatMap blockBytes).length) (blockBytes g).length =
        .ok (f.window (FHDR + (A.flatMap blockBytes).length) (blockBytes g).length) :=
      if_pos (by rw [Buffer.size, hwin])
    rw [load_eq (by rw [hsi]; exact hopen) hsf, hidx]
    show (readExact f _ _ >>= _) = _
    rw [hread]
    show (blockRead .machine _ >>= _) = _
    rw [blockRead_whole hwin (hgfit g hg) hglen]
    rfl
  · intro g hg hn
    have := hm.laid.closed g hg
    rw [hn] at this
    exact this rfl
  · intro x hx
    have hk := hm.apart.stored
    rw [append_nil] at hk
    have hl := Kept.last hk
    rw [hx] at hl
    rcases he : es.getLast? with _ | e
    · rw [he] at hl
      cases hl
    · rw [he] at hl
      obtain ⟨h₁, h₂⟩ := hm.told.last e he
      simp only [Option.map_some, Option.some.injEq, Prod.mk.injEq] at hl
      exact ⟨h₁.trans hl.1.symm, h₂.trans hl.2.symm⟩

theorem Made.cut_of_fits (hm : Made db (db.built es) es gs left)
    (hb : ∀ g ∈ db.blocks es, db.blockSize g + TRAIL < 2 ^ 32) :
    left = [] ∧ Forall₂ (Forall₂ (Kept db ((db.built es).bf.getD []))) (db.blocks es) gs := by
  have hrel := blocks_rel hm.apart.stored
  rcases hm.cut with ⟨rfl, hgs, -⟩ | ⟨-, g, hg, hle⟩
  · rw [append_nil] at hrel
    rw [hgs]
    exact ⟨rfl, hrel⟩
  · exfalso
    obtain ⟨g', hg', hk⟩ := forall₂_right hrel g hg
    have h₁ := hb g' hg'
    have h₂ := length_le_flatMap g
    have h₃ := Kept.bodySize hk
    rw [Raw.bodySize] at h₃
    omega

theorem round_of_fits (hd : db.Ok) (hne : es ≠ []) (ho : InOrder es) (hfit : ∀ e ∈ es, e.Fits) (hover : o < U64)
    (hf : f.bytes = (build db es).file)
    (hb : ∀ l, (build db es).bf = some l → ∃ b, blobs db.own = some b ∧ b.bytes = l) (h : db.Fits es) :
    RoundTrip db es o f blobs := by
  obtain ⟨gs, left, hm⟩ := build_made hd.identity ho
  obtain ⟨rfl, hrel⟩ := hm.cut_of_fits h.blocks
  have hst := hm.apart.stored
  rw [append_nil] at hst
  have hsize : ∀ g ∈ gs, (blockBytes g).length < 2 ^ 32 := by
    intro g hg
    obtain ⟨g', hg', hk⟩ := forall₂_right hrel g hg
    have h₁ := h.blocks g' hg'
    rw [← Kept.bodySize hk] at h₁
    rw [blockBytes, length_sealBlock]
    exact h₁
  have hisz : (indexBytes gs es.length).length < 2 ^ 32 := by
    rw [indexBytes, length_sealBlock, length_putIdx, idxSize_rel hrel]
    exact h.index
  have hbits : bloomBits (db.built es).hashes.length < 2 ^ 32 := by
    rw [hm.told.hashes]
    exact h.filter
  have hloads := loads_of (o := o) hd hm hfit hf hsize hisz hbits
  have hord : InOrder gs.flatten := InOrder.stored hst ho
  have hgs : gs ≠ [] := by
    rintro rfl
    cases hst
    exact hne rfl
  refine ⟨⟨_, hloads.opens, fun e he => bloomMay_of (hm.told.hashed e he) _⟩, ?_, described hm hf h.covers⟩
  have hstands := stands_over (o := o) hd hm hb h.values
  rw [append_nil] at hstands
  have hfind : ∀ (k : List Byte) (seq : Nat) (l : List Ent),
      (l.map (Ent.withSeq o)).find? (fun e => !entBefore e.k e.seq k seq) =
      (l.find? (fun e => !isBefore o k seq e)).map (Ent.withSeq o) := by
    intro k seq l
    rw [List.find?_map]
    rfl
  have hfindLt : ∀ (k : List Byte) (seq : Nat) (l : List Ent),
      (l.map (Ent.withSeq o)).reverse.find? (fun e => entBefore e.k e.seq k seq) =
      (l.reverse.find? (isBefore o k seq)).map (Ent.withSeq o) := by
    intro k seq l
    rw [← List.map_reverse, List.find?_map]
    rfl
  refine ⟨_, hstands, ?_, fun k seq => ?_, fun k seq => ?_⟩
  · have hmax : ∀ e ∈ gs.flatten, isBefore o [] (U64 - 1) e = false := by
      intro e he
      obtain ⟨g, hg, he⟩ := List.mem_flatten.1 he
      have hseq := (stored_fits hm hfit g hg e he).seq
      rw [isBefore, entBefore, decide_eq_false_iff_not, not_or]
      refine ⟨List.not_lt_nil _, fun hc => ?_⟩
      have := hc.2
      unfold eseq at this
      split_ifs at this <;> omega
    obtain ⟨s, hs, hall⟩ := seek_all hloads hord hgs (s := srcOf db.identity ((build db es).sst o f)) rfl rfl hmax
    exact ⟨s, _, hs, hall _ (Nat.lt_succ_self _)⟩
  · rw [hfind]
    exact seek_here hloads hord hgs rfl rfl k seq
  · rw [hfindLt]
    exact seekLt_lands hloads hord hgs rfl rfl k seq

end Round

/-! ## Where they do not -/

section Short

variable {identity : List Byte} {m : Sst} {ix : FileIndex} {caps : List Nat}

/-- It stands in a block that has no more entries than `caps` says. -/
structure Src.Held (s : Src) (identity : List Byte) (m : Sst) (caps : List Nat) : Prop where
  identity : s.identity = identity
  files : s.files = [m]
  fi : s.fi = 0
  blk : ∃ c, caps[s.bi]? = some c ∧ s.blk.length ≤ c

variable (ho : fileOpen .machine identity m.fileMeta.num m.file = .ok ix)
  (hl : ∀ (s s' : Src) (i : Nat), s.identity = identity → s.files = [m] → s.load 0 i = .ok s' →
    s'.Held identity m caps ∧ s'.bi = i)

include ho hl in
theorem stepOn_held : ∀ (n : Nat) {s s' : Src} {bi : Nat}, s.identity = identity → s.files = [m] →
    s.stepOn n 0 bi = .ok s' → s'.valid = false ∨ s'.Held identity m caps ∧ s'.ei = 0 ∧ bi ≤ s'.bi
  | 0, _, _, _, _, _, hs => by cases hs
  | n + 1, s, s', bi, hi, hf, hs => by
    have hopen : s.opened 0 = .ok ix := by
      rw [Src.opened, hf, hi]
      exact ho
    rw [Src.stepOn, hopen] at hs
    change (if ix.index.length ≤ bi then
      if s.files.length ≤ 0 + 1 then (.ok { s with valid := false } : Decoder Src) else s.stepOn n (0 + 1) 0
      else s.load 0 bi >>= fun t => if t.blk ≠ [] then .ok { t with ei := 0 } else t.stepOn n 0 (bi + 1)) = _ at hs
    by_cases hb : ix.index.length ≤ bi
    · rw [if_pos hb, hf, if_pos (by simp)] at hs
      cases hs
      exact .inl rfl
    rw [if_neg hb] at hs
    rcases hload : s.load 0 bi with stop | t
    · rw [hload] at hs
      cases hs
    rw [hload] at hs
    change (if t.blk ≠ [] then (.ok { t with ei := 0 } : Decoder Src) else t.stepOn n 0 (bi + 1)) = _ at hs
    obtain ⟨ht, hbi⟩ := hl s t bi hi hf hload
    by_cases hne : t.blk ≠ []
    · rw [if_pos hne] at hs
      cases hs
      exact .inr ⟨⟨ht.identity, ht.files, ht.fi, ht.blk⟩, rfl, hbi.ge⟩
    · rw [if_neg hne] at hs
      rcases stepOn_held n ht.identity ht.files hs with h | ⟨h₁, h₂, h₃⟩
      · exact .inl h
      · exact .inr ⟨h₁, h₂, by omega⟩

theorem sum_drop_le {i j : Nat} (h : i ≤ j) : (caps.drop j).sum ≤ (caps.drop i).sum := by
  obtain ⟨k, rfl⟩ := Nat.exists_eq_add_of_le h
  have hs := congrArg List.sum (List.take_append_drop k (caps.drop i))
  rw [List.sum_append, drop_drop] at hs
  omega

include ho hl in
theorem entries_held : ∀ (n : Nat) {s : Src} {es : List Ent}, s.Held identity m caps → s.valid = true →
    s.entries n = .ok es → es.length + s.ei ≤ (caps.drop s.bi).sum
  | 0, _, _, _, _, he => by cases he
  | n + 1, s, es, hs, hv, he => by
    obtain ⟨c, hc, hle⟩ := hs.blk
    obtain ⟨hlt, hcap⟩ := List.getElem?_eq_some_iff.1 hc
    have hsum : (caps.drop s.bi).sum = c + (caps.drop (s.bi + 1)).sum := by
      rw [List.drop_eq_getElem_cons hlt, sum_cons, hcap]
    rw [Src.entries, if_pos hv] at he
    rcases hent : s.ent with stop | e
    · rw [hent] at he
      cases he
    have hei : s.ei < s.blk.length := by
      rw [Src.ent, hs.files, hs.fi] at hent
      by_contra hcon
      have hnone : s.blk[s.ei]? = none := List.getElem?_eq_none (by omega)
      simp only [member, hnone] at hent
      cases hent
    rcases hnext : s.next with stop | s'
    · rw [hent, hnext] at he
      cases he
    rcases hrest : s'.entries n with stop | es'
    · rw [hent, hnext] at he
      simp only [bind, Except.bind, hrest] at he
      cases he
    rw [hent, hnext] at he
    simp only [bind, Except.bind, hrest, pure, Except.pure, Except.ok.injEq] at he
    subst he
    rw [List.length_cons]
    rw [Src.next, if_pos hv] at hnext
    by_cases hmore : s.ei + 1 < s.blk.length
    · rw [if_pos hmore] at hnext
      cases hnext
      have ih := entries_held n (s := { s with ei := s.ei + 1 }) ⟨hs.identity, hs.files, hs.fi, hs.blk⟩ hv hrest
      dsimp only at ih
      omega
    rw [if_neg hmore, hs.fi] at hnext
    rcases stepOn_held ho hl _ hs.identity hs.files hnext with hv' | ⟨hs', hei', hbi'⟩
    · have hnil : es' = [] := by
        cases n with
        | zero => cases hrest
        | succ n =>
          rw [Src.entries, hv'] at hrest
          cases hrest
          rfl
      subst hnil
      rw [List.length_nil]
      omega
    · rcases hv' : s'.valid with _ | _
      · have hnil : es' = [] := by
          cases n with
          | zero => cases hrest
          | succ n =>
            rw [Src.entries, hv'] at hrest
            cases hrest
            rfl
        subst hnil
        rw [List.length_nil]
        omega
      · have ih := entries_held n hs' hv' hrest
        have hmono : (caps.drop s'.bi).sum ≤ (caps.drop (s.bi + 1)).sum := sum_drop_le hbi'
        omega

include ho hl in
theorem seek_held {s s' : Src} {k : List Byte} {seq n : Nat} {es : List Ent} (hi : s.identity = identity)
    (hf : s.files = [m]) (hs : s.seek k seq = .ok s') (he : s'.entries n = .ok es) : es.length ≤ caps.sum := by
  have hland : s'.valid = false ∨ s'.Held identity m caps := by
    rw [Src.seek, hf, searchList_one] at hs
    split_ifs at hs
    · cases hs
      exact .inl rfl
    have hmem : member ({ s with valid := false } : Src).files 0 = .ok m := by
      show member s.files 0 = _
      rw [hf]
      rfl
    have hopen : ({ s with valid := false } : Src).opened 0 = .ok ix := by
      show Src.opened s 0 = _
      rw [Src.opened, hf, hi]
      exact ho
    rw [show [m].length - 0 = 0 + 1 from rfl, Src.seekFrom] at hs
    rw [show ({ s with files := [m], valid := false } : Src) = { s with valid := false } by rw [hf]] at hs
    rw [hmem, hopen] at hs
    simp only [bind, Except.bind] at hs
    split_ifs at hs
    · cases hs
      exact .inl rfl
    split at hs
    · cases hs
    · next t hload =>
      obtain ⟨ht, -⟩ := hl _ t _ (by exact hi) (by exact hf) hload
      split_ifs at hs
      · cases hs
        exact .inr ⟨ht.identity, ht.files, ht.fi, ht.blk⟩
      · cases hs
        exact .inl rfl
  rcases hland with hv | hs'
  · cases n with
    | zero => cases he
    | succ n =>
      rw [Src.entries, hv] at he
      cases he
      exact Nat.zero_le _
  · rcases hv : s'.valid with _ | _
    · cases n with
      | zero => cases he
      | succ n =>
        rw [Src.entries, hv] at he
        cases he
        exact Nat.zero_le _
    · have h₁ := entries_held ho hl n hs' hv he
      have h₂ : (caps.drop s'.bi).sum ≤ (caps.drop 0).sum := sum_drop_le (Nat.zero_le s'.bi)
      rw [List.drop_zero] at h₂
      omega

end Short

section Round

variable {db : Db} {es : List Ent} {o : Nat} {f : Buffer} {blobs : Nat → Option Buffer}
  {gs : List (List Ent)} {left : List Ent}

def cap (g : List Ent) : Nat := if (blockBytes g).length < 2 ^ 32 then g.length else g.length - 1

theorem entries_mono : ∀ (n k : Nat) {s : Src} {es : List Ent}, s.entries n = .ok es → s.entries (n + k) = .ok es
  | 0, _, _, _, h => by cases h
  | n + 1, k, s, es, h => by
    rw [show n + 1 + k = (n + k) + 1 by omega]
    rw [Src.entries] at h ⊢
    split_ifs at h ⊢
    · rcases hent : s.ent with stop | e
      · rw [hent] at h
        cases h
      rcases hnext : s.next with stop | s'
      · rw [hent, hnext] at h
        cases h
      rcases hrest : s'.entries n with stop | es'
      · rw [hent, hnext] at h
        simp only [bind, Except.bind, hrest] at h
        cases h
      rw [hent, hnext] at h
      simp only [bind, Except.bind, hrest, entries_mono n k hrest] at h ⊢
      exact h
    · exact h

theorem load_held (hd : db.Ok) (hm : Made db (db.built es) es gs left) (hfit : ∀ e ∈ es, e.Fits)
    (hf : f.bytes = (build db es).file) {ix : FileIndex}
    (ho : fileOpen .machine db.identity ((build db es).sst o f).fileMeta.num f = .ok ix) {cs : List IdxEntry}
    (hix : idxs FHDR gs = ix.index ++ cs) (s s' : Src) (i : Nat) (hi : s.identity = db.identity)
    (hs : s.files = [(build db es).sst o f]) (hl : s.load 0 i = .ok s') :
    s'.Held db.identity ((build db es).sst o f) ((gs.take ix.index.length).map cap) ∧ s'.bi = i := by
  rw [build_file hd.identity hm] at hf
  rw [load_eq (by rw [hi]; exact ho) hs] at hl
  rcases hie : ix.index[i]? with _ | ie
  · rw [member, hie] at hl
    cases hl
  obtain ⟨hilt, -⟩ := List.getElem?_eq_some_iff.1 hie
  have hlen := congrArg List.length hix
  rw [length_idxs, length_append] at hlen
  -- the block it is
  have hig : i < gs.length := by omega
  have hgs : gs = gs.take i ++ gs[i] :: gs.drop (i + 1) := by
    rw [← List.drop_eq_getElem_cons hig, List.take_append_drop]
  have htl : (gs.take i).length = i := by
    rw [length_take]
    omega
  have hget : (idxs FHDR gs)[i]? = some ie := by
    rw [hix, List.getElem?_append_left hilt, hie]
  have hget' := idxs_get (gs.take i) (gs.drop (i + 1)) gs[i]
  rw [← hgs, htl, hget] at hget'
  obtain rfl := Option.some.inj hget'
  have hg : gs[i] ∈ gs := List.getElem_mem hig
  have hmod := Nat.mod_le (blockBytes gs[i]).length (2 ^ 32)
  have hwin := window_block hd.identity hf hgs hmod
  have hsz : (f.window (FHDR + ((gs.take i).flatMap blockBytes).length) ((blockBytes gs[i]).length % 2 ^ 32)).size =
      (blockBytes gs[i]).length % 2 ^ 32 := by
    rw [Buffer.size, hwin, length_take]
    omega
  rw [member, hie] at hl
  change (readExact f _ _ >>= _) = _ at hl
  rw [readExact, if_pos hsz] at hl
  change (blockRead .machine _ >>= _) = _ at hl
  rcases hread : blockRead .machine
      (f.window (FHDR + ((gs.take i).flatMap blockBytes).length) ((blockBytes gs[i]).length % 2 ^ 32)) with stop | blk
  · rw [hread] at hl
    cases hl
  rw [hread] at hl
  have hsmall := f.small
  have hblt : (blockBytes gs[i]).length < 2 ^ 63 := by
    have h₁ := length_blockBytes_le hg
    have h₂ := size_sst hd.identity hf
    have h₃ : indexOff gs = FHDR + (gs.flatMap blockBytes).length := rfl
    have h₄ : f.size = f.bytes.length := rfl
    omega
  obtain ⟨h₁, h₂⟩ := blockRead_part hwin hmod (stored_fits hm hfit _ hg) hblt hread
  cases hl
  refine ⟨⟨hi, hs, rfl, cap gs[i], ?_, ?_⟩, rfl⟩
  · rw [List.getElem?_map, List.getElem?_take_of_lt hilt, List.getElem?_eq_getElem hig]
    rfl
  · show blk.length ≤ cap gs[i]
    rw [cap]
    split_ifs with hfit'
    · exact h₁
    · have := h₂ (by
        have := Nat.mod_lt (blockBytes gs[i]).length (show 0 < 2 ^ 32 by decide)
        omega)
      omega

theorem cap_le (g : List Ent) : cap g ≤ g.length := by
  rw [cap]
  split_ifs <;> omega

theorem sum_caps : ∀ gs : List (List Ent), (gs.map cap).sum ≤ gs.flatten.length
  | [] => le_rfl
  | g :: gs => by
    have h₁ := cap_le g
    have h₂ := sum_caps gs
    rw [map_cons, sum_cons, List.flatten_cons, length_append]
    omega

theorem sum_caps_eq : ∀ {gs : List (List Ent)}, (∀ g ∈ gs, g ≠ []) → gs.flatten.length ≤ (gs.map cap).sum →
    ∀ g ∈ gs, (blockBytes g).length < 2 ^ 32
  | [], _, _, _, hg => by cases hg
  | g :: gs, hne, hle, a, ha => by
    have h₁ := cap_le g
    have h₂ := sum_caps gs
    rw [map_cons, sum_cons, List.flatten_cons, length_append] at hle
    rcases mem_cons.1 ha with rfl | ha
    · by_contra hc
      have hpos := List.length_pos_iff.2 (hne a (List.mem_cons_self ..))
      have hcap : cap a = a.length - 1 := if_neg hc
      omega
    · exact sum_caps_eq (fun b hb => hne b (List.mem_cons_of_mem g hb)) (by omega) a ha

theorem blocks_of_round (hd : db.Ok) (hfit : ∀ e ∈ es, e.Fits) (hf : f.bytes = (build db es).file)
    (hm : Made db (db.built es) es gs left) (h : RoundTrip db es o f blobs) :
    left = [] ∧ (∀ g ∈ gs, (blockBytes g).length < 2 ^ 32) ∧ (indexBytes gs es.length).length < 2 ^ 32 := by
  have hnum : db.nextFile < U64 := by
    have h₁ := hd.numbers
    have h₂ : db.own = db.nextFile + 1 := rfl
    omega
  have hmeta : (build db es).fileMeta.num = db.nextFile := hm.apart.num
  have hgfit := stored_fits hm hfit
  have hfile := build_file hd.identity hm
  obtain ⟨ix, hix, -⟩ := h.filter
  obtain ⟨⟨cs, hcs, hcne⟩, -⟩ := fileOpen_part hd.identity hnum (by rw [hf, hfile]) hgfit (by rw [← hmeta]; exact hix)
  obtain ⟨st, hst, ⟨s, n, hs, hn⟩, -⟩ := h.reads
  have hle := seek_held (m := (build db es).sst o f) hix
    (fun s s' i hi hsf hl => load_held (o := o) hd hm hfit hf hix hcs s s' i hi hsf hl) rfl
    rfl hs hn
  have hlst : st.length = (gs.flatten ++ left).length := by
    rw [← hst.length_eq, hm.apart.stored.length_eq]
  have hgne : ∀ g ∈ gs, g ≠ [] := by
    intro g hg hnil
    have := hm.laid.closed g hg
    rw [hnil] at this
    exact this rfl
  have h₁ := sum_caps (gs.take ix.index.length)
  have hsplit : gs.flatten.length = (gs.take ix.index.length).flatten.length +
      (gs.drop ix.index.length).flatten.length := by
    conv_lhs => rw [← List.take_append_drop ix.index.length gs]
    rw [List.flatten_append, length_append]
  rw [hlst, length_append] at hle
  have hleft : left = [] := List.length_eq_zero_iff.1 (by omega)
  have hdrop : gs.drop ix.index.length = [] := by
    rcases hd' : gs.drop ix.index.length with _ | ⟨g, B⟩
    · rfl
    · exfalso
      have hg : g ∈ gs := List.mem_of_mem_drop (i := ix.index.length) (by rw [hd']; simp)
      have hpos := List.length_pos_iff.2 (hgne g hg)
      rw [hd', List.flatten_cons, length_append] at hsplit
      omega
  have htake : gs.take ix.index.length = gs := by
    conv_rhs => rw [← List.take_append_drop ix.index.length gs]
    rw [hdrop, append_nil]
  rw [htake] at hle
  refine ⟨hleft, sum_caps_eq hgne (by omega), ?_⟩
  by_contra hc
  have hlen := congrArg List.length hcs
  rw [length_idxs, length_append] at hlen
  have hpos := List.length_pos_iff.2 (hcne (by omega))
  have hge := List.drop_eq_nil_iff.1 hdrop
  omega

theorem fits_of_round (hd : db.Ok) (hne : es ≠ []) (ho : InOrder es) (hfit : ∀ e ∈ es, e.Fits) (hover : o < U64)
    (hf : f.bytes = (build db es).file)
    (hb : ∀ l, (build db es).bf = some l → ∃ b, blobs db.own = some b ∧ b.bytes = l) (hfs : filterSize es < 2 ^ 32)
    (h : RoundTrip db es o f blobs) : db.Fits es := by
  obtain ⟨gs, left, hm⟩ := build_made hd.identity ho
  obtain ⟨rfl, hsize, hisz⟩ := blocks_of_round hd hfit hf hm h
  have hnum : db.nextFile < U64 := by
    have h₁ := hd.numbers
    have h₂ : db.own = db.nextFile + 1 := rfl
    omega
  have hst := hm.apart.stored
  have hgfit := stored_fits hm hfit
  rw [append_nil] at hst
  obtain ⟨ix, hix, -⟩ := h.filter
  -- the blocks are those the entries are cut into
  have hgs : gs = cuts bodySize db.block [] gs.flatten := by
    rcases hm.cut with ⟨-, hgs, -⟩ | ⟨⟨g, hg, hle⟩ | hle, -⟩
    · exact hgs
    · exfalso
      have h₁ := hsize g hg
      have h₂ := length_le_flatMap g
      rw [blockBytes, length_sealBlock] at h₁
      omega
    · simp at hle
  have hrel := blocks_rel hst
  rw [← hgs] at hrel
  have hbits : bloomBits (db.built es).hashes.length < 2 ^ 32 := by
    refine (fileOpen_part hd.identity hnum (by rw [hf, build_file hd.identity hm]) hgfit
      (by rw [← show (build db es).fileMeta.num = db.nextFile from hm.apart.num]; exact hix)).2 ?_
    rw [length_bloomBytes, hm.told.hashes]
    exact hfs
  refine ⟨fun e he hs => ?_, fun g hg => ?_, ?_, ?_, fun num => ?_⟩
  · -- the entries that are read are those that were stored
    have hloads := loads_of (o := o) hd hm hfit hf hsize hisz hbits
    have hmax : ∀ e ∈ gs.flatten, isBefore o [] (U64 - 1) e = false := by
      intro e he
      obtain ⟨g, hg, he⟩ := List.mem_flatten.1 he
      have hseq := (stored_fits hm hfit g hg e he).seq
      rw [isBefore, entBefore, decide_eq_false_iff_not, not_or]
      refine ⟨List.not_lt_nil _, fun hc => ?_⟩
      have := hc.2
      unfold eseq at this
      split_ifs at this <;> omega
    have hgne : gs ≠ [] := by
      rintro rfl
      cases hst
      exact hne rfl
    obtain ⟨s₁, hs₁, hall⟩ := seek_all hloads (InOrder.stored hst ho) hgne
      (s := srcOf db.identity ((build db es).sst o f))
      rfl rfl hmax
    obtain ⟨st, hstands, ⟨s, n, hs₂, hn⟩, -⟩ := h.reads
    rw [hs₁] at hs₂
    cases hs₂
    have h₁ := entries_mono n (gs.flatten.length + 1) hn
    rw [hall _ (by omega)] at h₁
    obtain rfl := Except.ok.inj h₁
    rw [List.forall₂_map_right_iff] at hstands
    obtain ⟨x, -, hk, hx⟩ := forall₂_left (Forall₂.mp (fun _ _ => And.intro) hst hstands) e he
    exact (value_back hd hm hb he hk hs).1 (hx.separated hs).2
  · obtain ⟨g', hg', hk⟩ := forall₂_left hrel g hg
    have h₁ := hsize g' hg'
    rw [← Kept.bodySize hk]
    rw [blockBytes, length_sealBlock] at h₁
    exact h₁
  · rw [indexBytes, length_sealBlock, length_putIdx, idxSize_rel hrel] at hisz
    exact hisz
  · rw [hm.told.hashes] at hbits
    exact hbits
  · have h₁ := h.described.blobBytes num
    have h₂ := hm.apart.bytes num
    have h₃ : bytesIn num (build db es).fileMeta.blobs = bytesIn num (db.built es).blobs := rfl
    rw [← h₁, h₃, h₂]
    exact Nat.mod_lt _ (by decide)

end Round

/-! ## The round trip -/

/-- **A sorted file reads back what was written where the lengths fit**, and only there if the filter's own size
does. -/
theorem sorted_round {db : Db} (hd : db.Ok) {es : List Ent} (hne : es ≠ []) (ho : InOrder es) (hfit : ∀ e ∈ es, e.Fits)
    {seqOver : Nat} (hover : seqOver < U64) {f : Buffer} (hf : f.bytes = (build db es).file)
    {blobs : Nat → Option Buffer}
    (hb : ∀ l, (build db es).bf = some l → ∃ b, blobs db.own = some b ∧ b.bytes = l) :
    (db.Fits es → RoundTrip db es seqOver f blobs) ∧
      (filterSize es < 2 ^ 32 → (RoundTrip db es seqOver f blobs ↔ db.Fits es)) :=
  ⟨round_of_fits hd hne ho hfit hover hf hb, fun hs =>
    ⟨fits_of_round hd hne ho hfit hover hf hb hs, round_of_fits hd hne ho hfit hover hf hb⟩⟩

/-- A store of blocks of 4 KiB whose values of three bytes and more are long. -/
def shortDb : Db := ⟨List.replicate 16 (byte 7), 4096, 3, 1⟩

/-- Two versions of a key, the first a long value, and a key that was deleted. -/
def twoKeys : List Ent :=
  [⟨text "treeid-0key", 9, TYPE_PUT, text "new"⟩, ⟨text "treeid-0key", 4, TYPE_PUT, text "o"⟩,
    ⟨text "treeid-0next", 5, TYPE_DEL, []⟩]

def twoFile : Buffer := ⟨(build shortDb twoKeys).file, by decide +kernel⟩

def twoBlob : Buffer := ⟨(build shortDb twoKeys).bf.getD [], by decide +kernel⟩

theorem sorted_round_two : RoundTrip shortDb twoKeys 0 twoFile (fun _ => some twoBlob) := by
  have hbf : (build shortDb twoKeys).bf = some twoBlob.bytes := by decide +kernel
  have hcovers : ∀ num, shortDb.covers num twoKeys ≤ 31 := by
    intro num
    have h : shortDb.covers num twoKeys = (if shortDb.own = num then 31 else 0) + (0 + (0 + 0)) := rfl
    rw [h]
    split_ifs <;> omega
  refine (sorted_round (by constructor <;> decide) (by decide) (by unfold InOrder; decide) (fun e he => ?_)
    (by decide) rfl
    (fun l hl => ⟨twoBlob, rfl, ?_⟩)).1 ⟨fun e he hs => ?_, by decide +kernel, by decide +kernel, by decide +kernel,
    fun num => ?_⟩
  · have hall : ∀ e ∈ twoKeys, e.seq < U64 ∧ e.type < 256 := by decide
    exact ⟨(hall e he).1, (hall e he).2⟩
  · rw [hbf] at hl
    exact Option.some.inj hl
  · have hall : ∀ e ∈ twoKeys, e.v.length < 2 ^ 32 := by decide
    exact hall e he
  · exact (hcovers num).trans_lt (by decide)

def hugeValue : Ent := ⟨text "treeid-0key", 1, TYPE_PUT, List.replicate (2 ^ 32) (byte 0)⟩

theorem hugeValue_separates : shortDb.separates hugeValue := by
  refine ⟨rfl, by decide, ?_⟩
  show 3 ≤ (List.replicate (2 ^ 32) (byte 0)).length
  rw [List.length_replicate]
  decide

theorem build_blob {db : Db} (hs : db.separates e) :
    (build db [e]).bf = some (fhdrBuild db.identity FK_BLOB db.own ++ (List.replicate SEAL (byte 0) ++ e.v)) := by
  have hfin : ∀ b, (bldFinishBlock b).bf = b.bf := by
    intro b
    obtain ⟨f, i, l, n, he⟩ := bldFinishBlock_eq b
    rw [he]
  have hadd : (bldAdd (bldOpen db) e).bf = (bldSeparate (bldOpen db) e).1.bf := by
    rw [bldAdd]
    dsimp only
    split_ifs
    · rw [hfin]
      rfl
    · rfl
  have hsep : (bldOpen db).db.separates e := hs
  show (bldFinishBlock (bldAdd (bldOpen db) e)).bf = _
  rw [hfin, hadd, bldSeparate, if_pos hsep]
  rfl

/-- **A value of 4 GiB does not come back.** -/
theorem hugeValue_lost : ¬ ∀ (db : Db) (es : List Ent) (seqOver : Nat) (f : Buffer) (blobs : Nat → Option Buffer),
    db.Ok → es ≠ [] → InOrder es → (∀ e ∈ es, e.Fits) → seqOver < U64 → f.bytes = (build db es).file →
    (∀ l, (build db es).bf = some l → ∃ b, blobs db.own = some b ∧ b.bytes = l) → RoundTrip db es seqOver f blobs := by
  intro h
  have hd : shortDb.Ok := by constructor <;> decide
  have ho : InOrder [hugeValue] := List.pairwise_singleton _ _
  have hfit : ∀ e ∈ [hugeValue], e.Fits := by
    intro e he
    rw [List.mem_singleton.1 he]
    exact ⟨by decide, by decide⟩
  have hblocks : shortDb.blocks [hugeValue] = [[hugeValue]] := by
    rw [Db.blocks, cuts]
    split_ifs <;> rfl
  have hsize : shortDb.blockSize [hugeValue] = 46 := by
    rw [Db.blockSize, List.map_singleton, Db.valueSize, if_pos hugeValue_separates]
    rfl
  -- the file is short
  obtain ⟨gs, left, hm⟩ := build_made hd.identity ho
  obtain ⟨rfl, hrel⟩ := hm.cut_of_fits (by
    rw [hblocks]
    intro g hg
    rw [List.mem_singleton.1 hg, hsize]
    decide)
  rw [hblocks] at hrel
  have hvl : hugeValue.v.length = 2 ^ 32 := List.length_replicate ..
  obtain ⟨f, hf⟩ : ∃ f : Buffer, f.bytes = (build shortDb [hugeValue]).file := by
    have hkey : lastKey [hugeValue] = text "treeid-0key" := rfl
    have hidx : (gs.map idxSize).sum = 32 := by
      rw [idxSize_rel hrel, List.map_singleton, idxSize, hkey]
      decide
    have hdata : (gs.flatMap blockBytes).length = 82 := by
      rcases hrel with _ | ⟨hk, hnil⟩
      cases hnil
      rw [List.flatMap_singleton, blockBytes, length_sealBlock]
      have := Kept.bodySize hk
      rw [Raw.bodySize, hsize] at this
      rw [this]
      rfl
    have hfoot : ∀ a b c d e, (footBuild a b c d e).length = 64 := by
      intro a b c d e
      simp [footBuild, footBytes]
    have hh : (shortDb.built [hugeValue]).hashes.length = 1 := hm.told.hashes.trans (by
      rw [keyCount, List.map_singleton]
      rfl)
    refine ⟨⟨(build shortDb [hugeValue]).file, ?_⟩, rfl⟩
    rw [build_file hd.identity hm, sstBytes, List.length_append, length_fhdrBuild hd.identity, List.length_append,
      hdata,
      List.length_append, indexBytes, length_sealBlock, length_putIdx, hidx, List.length_append, hfoot,
      length_bloomBytes, hh]
    decide
  obtain ⟨b, hb⟩ : ∃ b : Buffer, b.bytes = fhdrBuild shortDb.identity FK_BLOB shortDb.own ++
      (List.replicate SEAL (byte 0) ++ hugeValue.v) := by
    refine ⟨⟨_, ?_⟩, rfl⟩
    rw [List.length_append, List.length_append, length_fhdrBuild hd.identity, List.length_replicate, hvl]
    decide
  have hblobs : ∀ l, (build shortDb [hugeValue]).bf = some l →
      ∃ b', (fun _ => some b : Nat → Option Buffer) shortDb.own = some b' ∧ b'.bytes = l := by
    intro l hl
    rw [build_blob hugeValue_separates] at hl
    exact ⟨b, rfl, hb.trans (Option.some.inj hl)⟩
  have hround := h shortDb [hugeValue] 0 f (fun _ => some b) hd (by simp) ho hfit (by decide) hf hblobs
  have hfilter : filterSize [hugeValue] < 2 ^ 32 := by
    have hk : keyCount [hugeValue] = 1 := by
      rw [keyCount, List.map_singleton]
      rfl
    rw [filterSize, hk]
    decide
  have hfits := fits_of_round hd (by simp) ho hfit (by decide) hf hblobs hfilter hround
  have hv := hfits.values hugeValue (by simp) hugeValue_separates
  omega

end Raw
end Gbasic
