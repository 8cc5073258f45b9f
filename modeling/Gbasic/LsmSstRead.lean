import Gbasic.LsmBuilt
import Mathlib.Data.Nat.Bitwise
/-!
# LsmSstRead — what is read of a sorted file that was written

A file's header passes its own check and a sealed block its own, a block read whole gives its entries
(`blockRead_whole`) and the file's index its blocks (`fileOpen_iff`).  A block whose size does not fit in 32 bits is
read only in part, and gives fewer entries than it has (`blockRead_part`).
-/
namespace Gbasic
namespace Raw

open Lsm (Status SEAL TRAIL FHDR FOOTER U64)
open List (append_assoc append_nil flatMap_cons length_append drop_zero mem_cons foldl_cons take_length)

variable {p : Buffer} {g : List Ent} {m : Nat} {l : List Byte}

/-! ## Parts of a buffer -/

theorem window_take {a x y : List Byte} {off n : Nat} (hp : p.bytes = a ++ (x ++ y)) (ha : a.length = off)
    (hn : n ≤ x.length) : (p.window off n).bytes = x.take n := by
  show (p.bytes.drop off).take n = _
  rw [hp, ← ha, List.drop_left, List.take_append_of_le_length hn]

theorem window_all {a x y : List Byte} {off n : Nat} (hp : p.bytes = a ++ (x ++ y)) (ha : a.length = off)
    (hn : x.length = n) : (p.window off n).bytes = x := by
  rw [window_take hp ha hn.ge, List.take_of_length_le hn.le]

theorem fhdrCheck_build {identity : List Byte} (hi : identity.length = 16) {kind num : Nat} (hk : kind < 256)
    (hn : num < U64) (hp : p.bytes = fhdrBuild identity kind num) : fhdrCheck identity kind num p = .ok () := by
  have hm : GS_MAGIC.length = 8 := by decide
  have hlen := length_fhdrBytes hi kind num
  have hbytes : p.bytes = GS_MAGIC ++ (lePut 2 GS_FORMAT_MAJOR ++ (lePut 2 GS_FORMAT_MINOR ++ (lePut 1 kind ++
      (lePut 1 0 ++ (lePut 2 0 ++ (identity ++ (lePut 8 num ++ (List.replicate 20 (byte 0) ++
        lePut 4 (crc32c (fhdrBytes identity kind num)))))))))) := by
    have hf : fhdrBytes identity kind num = GS_MAGIC ++ (lePut 2 GS_FORMAT_MAJOR ++ (lePut 2 GS_FORMAT_MINOR ++
        (lePut 1 kind ++ (lePut 1 0 ++ (lePut 2 0 ++ (identity ++ (lePut 8 num ++ List.replicate 20 (byte 0)))))))) :=
          rfl
    rw [hp, fhdrBuild]
    generalize crc32c (fhdrBytes identity kind num) = c
    rw [hf]
    simp only [append_assoc]
  have h60 : p.bytes.take 60 = fhdrBytes identity kind num := by
    rw [hp, fhdrBuild, List.take_append_of_le_length hlen.ge, List.take_of_length_le hlen.le]
  have hcrc : p.get 60 4 = crc32c (fhdrBytes identity kind num) :=
    get_append (b := []) (by rw [append_nil]; exact hp) hlen (crc32c_lt _)
  have hmagic : p.bytes.take 8 = GS_MAGIC := by
    rw [hbytes, List.take_append_of_le_length hm.ge, List.take_of_length_le hm.le]
  have hmajor : p.get 8 2 = GS_FORMAT_MAJOR := get_append hbytes hm (by decide)
  have hflags : p.get 13 1 = 0 :=
    get_append (a := GS_MAGIC ++ lePut 2 GS_FORMAT_MAJOR ++ lePut 2 GS_FORMAT_MINOR ++ lePut 1 kind)
      (by rw [hbytes]; simp only [append_assoc]; rfl) (by simp [hm]) (by decide)
  have hkind : p.get 12 1 = kind :=
    get_append (a := GS_MAGIC ++ lePut 2 GS_FORMAT_MAJOR ++ lePut 2 GS_FORMAT_MINOR)
      (by rw [hbytes]; simp only [append_assoc]; rfl) (by simp [hm]) (by simpa using hk)
  have hnum : p.get 32 8 = num :=
    get_append (a := GS_MAGIC ++ lePut 2 GS_FORMAT_MAJOR ++ lePut 2 GS_FORMAT_MINOR ++ lePut 1 kind ++ lePut 1 0 ++
        lePut 2 0 ++ identity)
      (by rw [hbytes]; simp only [append_assoc]; rfl) (by simp [hm, hi]) hn
  have hid : (p.window 16 16).bytes = identity :=
    window_all (a := GS_MAGIC ++ lePut 2 GS_FORMAT_MAJOR ++ lePut 2 GS_FORMAT_MINOR ++ lePut 1 kind ++ lePut 1 0 ++
        lePut 2 0)
      (by rw [hbytes]; simp only [append_assoc]; rfl) (by simp [hm]) hi
  rw [fhdrCheck, if_neg (by rw [hmagic, hcrc, h60]; simp), if_neg (not_not.2 hmajor), hflags, if_neg (by decide),
    if_neg (by omega), if_neg (by rw [hkind, hid, hnum]; simp)]
  rfl

@[simp] theorem length_sealBytes (l : List Byte) (n : Nat) : (sealBytes l n).length = l.length + 32 := by
  simp [sealBytes, SEAL]

@[simp] theorem length_sealBlock (l : List Byte) (n : Nat) : (sealBlock l n).length = l.length + TRAIL := by
  simp [sealBlock, TRAIL, SEAL]

theorem checkBlock_seal {n : Nat} (hp : p.bytes = sealBlock l n) : checkBlock p = .ok () := by
  have hsize : p.size = l.length + TRAIL := by rw [Buffer.size, hp, length_sealBlock]
  have hoff : (sealBytes l n).length = p.size - 4 := by
    rw [length_sealBytes, hsize, TRAIL, SEAL]
    omega
  have hcrc : p.get (p.size - 4) 4 = crc32c (sealBytes l n) :=
    get_append (b := []) (by rw [append_nil]; exact hp) hoff (crc32c_lt _)
  have htake : p.bytes.take (p.size - 4) = sealBytes l n := by
    rw [hp, sealBlock, ← hoff, List.take_left]
  rw [checkBlock, if_neg (by omega), hcrc, htake, if_pos rfl]
  rfl

theorem take_sealBlock (h : m ≤ l.length) (n : Nat) : (sealBlock l n).take m = l.take m := by
  rw [sealBlock, sealBytes, append_assoc, List.take_append_of_le_length h]

theorem sealBlock_mod (l : List Byte) (n : Nat) : sealBlock l (n % 2 ^ 32) = sealBlock l n := by
  rw [sealBlock, sealBlock, sealBytes, sealBytes, show (2 ^ 32 : Nat) = 256 ^ 4 from rfl, lePut_mod]

theorem get_seal {n : Nat} (hp : p.bytes = sealBlock l n) (hn : n < 2 ^ 32) : p.get (p.size - TRAIL) 4 = n := by
  refine get_append (a := l) (b := List.replicate SEAL (byte 0) ++ lePut 4 (crc32c (sealBytes l n))) ?_ ?_ hn
  · rw [hp]
    simp only [sealBlock, sealBytes, append_assoc]
  · rw [Buffer.size, hp, length_sealBlock]
    omega

/-! ## A block -/

/-- What an entry's fields are to be: of 64 bits, its type of eight. -/
structure Ent.Fits (e : Ent) : Prop where
  seq : e.seq < U64
  type : e.type < 256

theorem stringOf_put {s : List Byte} (h : s.length < 2 ^ 63) : StringOf s (putBytes s) :=
  ⟨uleb s.length, by simpa using ulebGet_uleb s.length [] (by omega), rfl⟩

theorem entOf_put {e : Ent} (h : e.Fits) (hl : (putEnt e).length < 2 ^ 63) : EntOf e (putEnt e) := by
  have hlen : (putEnt e).length = (uleb e.k.length).length + e.k.length +
      (8 + (1 + ((uleb e.v.length).length + e.v.length))) := by
    simp [putEnt, putBytes]
    omega
  exact ⟨_, _, stringOf_put (by omega), stringOf_put (by omega), ⟨h.seq, h.type⟩, rfl⟩

theorem length_putEnt_le {e : Ent} (h : e ∈ g) : (putEnt e).length ≤ (g.flatMap putEnt).length := by
  obtain ⟨p, q, rfl⟩ := List.append_of_mem h
  simp only [List.flatMap_append, flatMap_cons, length_append]
  omega

theorem row_put (h : ∀ e ∈ g, e.Fits) (hl : (g.flatMap putEnt).length < 2 ^ 63) : Row EntOf g (g.flatMap putEnt) :=
  row_flatMap (fun e he => entOf_put (h e he) ((length_putEnt_le he).trans_lt hl))

theorem length_le_flatMap (g : List Ent) : g.length ≤ (g.flatMap putEnt).length := by
  induction g with
  | nil => exact le_rfl
  | cons e g ih =>
    have hpos : 0 < (putEnt e).length := by simp [putEnt]
    rw [List.length_cons, flatMap_cons, length_append]
    omega

/-- **A block read whole gives its entries.** -/
theorem blockRead_whole {raw : Buffer} (hp : raw.bytes = blockBytes g) (h : ∀ e ∈ g, e.Fits) (hg : g.length < 2 ^ 32) :
    blockRead .machine raw = .ok g := by
  have hsmall := raw.small
  have hlen : raw.bytes.length = (g.flatMap putEnt).length + TRAIL := by rw [hp, blockBytes, length_sealBlock]
  have hcount : raw.get (raw.size - TRAIL) 4 = g.length := by
    rw [get_seal hp (Nat.mod_lt _ (by decide)), Nat.mod_eq_of_lt hg]
  have hle := length_le_flatMap g
  have hw : (raw.window 0 (raw.size - TRAIL)).bytes = g.flatMap putEnt := by
    refine window_all (a := []) (y := lePut 4 (g.length % 2 ^ 32) ++ List.replicate SEAL (byte 0) ++
      lePut 4 (crc32c (sealBytes (g.flatMap putEnt) (g.length % 2 ^ 32)))) ?_ rfl ?_
    · rw [hp]
      simp only [blockBytes, sealBlock, sealBytes, append_assoc, List.nil_append]
    · rw [Buffer.size, hlen]
      omega
  rw [blockRead, checkBlock_seal hp, hcount]
  show (if raw.size < g.length then corrupt else blockParse .machine raw g.length) = _
  rw [if_neg (by rw [Buffer.size, hlen]; omega)]
  refine blockParse_iff.2 ⟨?_, rfl⟩
  rw [hw]
  exact row_put h (by omega)

theorem blockRead_part {raw : Buffer} {es : List Ent} {n : Nat} (hp : raw.bytes = (blockBytes g).take n)
    (hn : n ≤ (blockBytes g).length) (h : ∀ e ∈ g, e.Fits) (hs : (blockBytes g).length < 2 ^ 63)
    (hr : blockRead .machine raw = .ok es) :
    es.length ≤ g.length ∧ (n < (blockBytes g).length → es.length < g.length) := by
  have hlen : (blockBytes g).length = (g.flatMap putEnt).length + TRAIL := by rw [blockBytes, length_sealBlock]
  have hsize : raw.size = n := by
    rw [Buffer.size, hp, List.length_take]
    omega
  have htr : TRAIL ≤ raw.size ∧ ∃ count, blockParse .machine raw count = .ok es := by
    rw [blockRead, checkBlock] at hr
    by_cases h₁ : raw.size < TRAIL
    · rw [if_pos h₁] at hr
      cases hr
    · refine ⟨by omega, raw.get (raw.size - TRAIL) 4, ?_⟩
      rw [if_neg h₁] at hr
      by_cases h₂ : raw.get (raw.size - 4) 4 = crc32c (raw.bytes.take (raw.size - 4))
      · rw [if_pos h₂] at hr
        change (if raw.size < raw.get (raw.size - TRAIL) 4 then corrupt
          else blockParse .machine raw (raw.get (raw.size - TRAIL) 4)) = _ at hr
        by_cases h₃ : raw.size < raw.get (raw.size - TRAIL) 4
        · rw [if_pos h₃] at hr
          cases hr
        · rw [if_neg h₃] at hr
          exact hr
      · rw [if_neg h₂] at hr
        cases hr
  obtain ⟨htr, count, hparse⟩ := htr
  have hrow := (blockParse_iff.1 hparse).1
  have hw : (raw.window 0 (raw.size - TRAIL)).bytes = (g.flatMap putEnt).take (n - TRAIL) := by
    show (raw.bytes.drop 0).take (raw.size - TRAIL) = _
    rw [drop_zero, hp, List.take_take, hsize, min_eq_left (by omega)]
    exact take_sealBlock (by omega) _
  rw [hw] at hrow
  obtain ⟨cs, hg, hcs⟩ := hrow.begins spells_blockEnt EntOf.ne_nil (row_put h (by omega))
    (List.take_append_drop (n - TRAIL) _) (by omega)
  have hl := congrArg List.length hg
  rw [length_append] at hl
  refine ⟨by omega, fun hlt => ?_⟩
  have hne : cs ≠ [] := hcs (by
    intro hnil
    have := congrArg List.length hnil
    rw [List.length_drop, List.length_nil] at this
    omega)
  have := List.length_pos_iff.2 hne
  omega

/-! ## A file -/

def indexBytes (gs : List (List Ent)) (n : Nat) : List Byte := sealBlock ((idxs FHDR gs).flatMap putIdxEntry) n

def bloomBytes (hashes : List Nat) : List Byte := sealBlock (bloomOf hashes) (bloomBits hashes.length)

def indexOff (gs : List (List Ent)) : Nat := FHDR + (gs.flatMap blockBytes).length

def sstBytes (identity : List Byte) (num : Nat) (gs : List (List Ent)) (n : Nat) (hashes : List Nat) : List Byte :=
  fhdrBuild identity FK_SORTED num ++ (gs.flatMap blockBytes ++ (indexBytes gs n ++ (bloomBytes hashes ++
    footBuild (indexOff gs) (indexBytes gs n).length (indexOff gs + (indexBytes gs n).length)
    (bloomBytes hashes).length n)))

theorem build_file {db : Db} {es : List Ent} {gs : List (List Ent)} {left : List Ent} (hi : db.identity.length = 16)
    (h : Made db (bldFinishBlock (es.foldl bldAdd (bldOpen db))) es gs left) :
    (build db es).file = sstBytes db.identity db.nextFile gs es.length
    (bldFinishBlock (es.foldl bldAdd (bldOpen db))).hashes := by
  have hlen := length_fhdrBuild hi FK_SORTED db.nextFile
  have hoff : (bldFinishBlock (es.foldl bldAdd (bldOpen db))).off = indexOff gs := by
    rw [Builder.off, h.laid.file, length_append, hlen, indexOff]
  have hindex : sealBlock (bldFinishBlock (es.foldl bldAdd (bldOpen db))).index
      (bldFinishBlock (es.foldl bldAdd (bldOpen db))).entries = indexBytes gs es.length := by
    rw [h.laid.index, h.told.entries, hlen, indexBytes]
  rw [build, bldClose]
  dsimp only
  rw [hindex, hoff, h.laid.file, h.told.entries, sstBytes, bloomBytes, append_assoc]

section Opened

variable {identity : List Byte} {num n : Nat} {gs : List (List Ent)} {hashes : List Nat} {f : Buffer}
  (hi : identity.length = 16) (hnum : num < U64) (hf : f.bytes = sstBytes identity num gs n hashes)

omit hi hf in
theorem footer_get {ioff isz boff bsz : Nat} (hp : p.bytes = footBuild ioff isz boff bsz m) (hio : ioff < U64)
    (hbo : boff < U64) :
    p.get 0 8 = ioff ∧ p.get 8 4 = isz % 2 ^ 32 ∧ p.get 12 8 = boff ∧ p.get 20 4 = bsz % 2 ^ 32 := by
  have hbytes : p.bytes = lePut 8 ioff ++ (lePut 4 (isz % 2 ^ 32) ++ (lePut 8 boff ++ (lePut 4 (bsz % 2 ^ 32) ++
      (lePut 8 m ++ (List.replicate 28 (byte 0) ++ lePut 4 (crc32c (footBytes ioff isz boff bsz m))))))) := by
    rw [hp, footBuild]
    generalize crc32c (footBytes ioff isz boff bsz m) = c
    rw [show (2 ^ 32 : Nat) = 256 ^ 4 from rfl, lePut_mod, lePut_mod, footBytes]
    simp only [append_assoc]
  refine ⟨get_append (a := []) hbytes rfl hio, get_append hbytes (length_lePut ..) (Nat.mod_lt _ (by decide)), ?_, ?_⟩
  · exact get_append (a := lePut 8 ioff ++ lePut 4 (isz % 2 ^ 32)) (by rw [hbytes]; simp only [append_assoc]; rfl)
      (by simp) hbo
  · exact get_append (a := lePut 8 ioff ++ lePut 4 (isz % 2 ^ 32) ++ lePut 8 boff)
      (by rw [hbytes]; simp only [append_assoc]; rfl) (by simp) (Nat.mod_lt _ (by decide))

include hi hf in
theorem size_sst : f.size = indexOff gs + ((indexBytes gs n).length + ((bloomBytes hashes).length + FOOTER)) := by
  have hlen := length_fhdrBuild hi FK_SORTED num
  have hfoot : ∀ a b c d e, (footBuild a b c d e).length = FOOTER := by
    intro a b c d e
    simp [footBuild, footBytes, FOOTER]
  rw [Buffer.size, hf, sstBytes]
  simp only [length_append, hlen, hfoot, indexOff]
  omega

include hi hnum hf in
/-- **What opening the file comes to**: the index and the filter pass their checks, the index's bytes are those of its
entries, and the filter's size is the one for its bits. -/
theorem fileOpen_eq : fileOpen .machine identity num f = (do
    checkBlock (f.window (indexOff gs) ((indexBytes gs n).length % 2 ^ 32))
    checkBlock (f.window (indexOff gs + (indexBytes gs n).length) ((bloomBytes hashes).length % 2 ^ 32))
    let c := ((f.window (indexOff gs) ((indexBytes gs n).length % 2 ^ 32)).window 0
      ((indexBytes gs n).length % 2 ^ 32 - TRAIL)).cursor
    let index ← whileLeft (idxEntry .machine (indexOff gs)) c.rest.length c
    let bb := f.window (indexOff gs + (indexBytes gs n).length) ((bloomBytes hashes).length % 2 ^ 32)
    let bits := bb.get ((bloomBytes hashes).length % 2 ^ 32 - TRAIL) 4
    if bits / 8 + 1 ≠ (bloomBytes hashes).length % 2 ^ 32 - TRAIL then corrupt
      else return ⟨index, bits, bb.bytes⟩) := by
  have hsize := size_sst hi hf
  have hsmall := f.small
  have hlen := length_fhdrBuild hi FK_SORTED num
  have hF : FHDR = 64 := rfl
  have hO : FOOTER = 64 := rfl
  have hoff : indexOff gs = 64 + (gs.flatMap blockBytes).length := rfl
  have hU : U64 = 2 ^ 64 := rfl
  have hsz : f.bytes.length = f.size := rfl
  let foot := f.window (f.size - FOOTER) FOOTER
  have hfoot : foot.bytes = footBuild (indexOff gs) (indexBytes gs n).length (indexOff gs + (indexBytes gs n).length)
      (bloomBytes hashes).length n := by
    refine window_all (a := fhdrBuild identity FK_SORTED num ++ gs.flatMap blockBytes ++ indexBytes gs n ++
      bloomBytes hashes) (y := []) ?_ ?_ ?_
    · rw [hf, sstBytes, append_nil]
      simp only [append_assoc]
    · simp only [length_append, hlen]
      omega
    · simp [footBuild, footBytes, FOOTER]
  have hbody : (footBytes (indexOff gs) (indexBytes gs n).length (indexOff gs + (indexBytes gs n).length)
      (bloomBytes hashes).length n).length = 60 := by
    simp [footBytes]
  have hcrc : foot.get 60 4 = crc32c (foot.bytes.take 60) := by
    have htake : foot.bytes.take 60 = footBytes (indexOff gs) (indexBytes gs n).length
        (indexOff gs + (indexBytes gs n).length) (bloomBytes hashes).length n := by
      rw [hfoot, footBuild, List.take_append_of_le_length hbody.ge, List.take_of_length_le hbody.le]
    rw [htake]
    exact get_append (b := []) (by rw [append_nil]; exact hfoot) hbody (crc32c_lt _)
  obtain ⟨h₀, h₈, h₁₂, h₂₀⟩ := footer_get hfoot (by omega) (by omega)
  have hcheck : fhdrCheck identity FK_SORTED num (f.window 0 FHDR) = .ok () :=
    fhdrCheck_build hi (by decide) hnum (window_all (a := []) hf rfl hlen)
  have hm₁ := Nat.mod_le (indexBytes gs n).length (2 ^ 32)
  have hm₂ := Nat.mod_le (bloomBytes hashes).length (2 ^ 32)
  have hranges : Sums.machine.ranges [indexOff gs + (indexBytes gs n).length % 2 ^ 32,
      indexOff gs + (indexBytes gs n).length + (bloomBytes hashes).length % 2 ^ 32] f.size = .ok () := by
    have hfits : ∀ s ∈ [indexOff gs + (indexBytes gs n).length % 2 ^ 32,
        indexOff gs + (indexBytes gs n).length + (bloomBytes hashes).length % 2 ^ 32], s ≤ f.size := by
      intro s hs
      simp only [mem_cons, List.not_mem_nil, or_false] at hs
      omega
    rw [Sums.ranges, Sums.fits, within, if_pos hfits, if_pos (fun s hs => (Nat.mod_le s U64).trans (hfits s hs))]
    rfl
  have hsizes : min ((indexBytes gs n).length % 2 ^ 32) (f.size - indexOff gs) = (indexBytes gs n).length % 2 ^ 32 := by
    omega
  rw [fileOpen, if_neg (by omega), hcheck]
  change (if foot.get 60 4 ≠ crc32c (foot.bytes.take 60) then corrupt else _) = _
  rw [if_neg (not_not.2 hcrc), h₀, h₈, h₁₂, h₂₀, hranges]
  rfl

omit hi hnum hf in
theorem mem_idxs {e : IdxEntry} : ∀ {off : Nat} {gs : List (List Ent)}, e ∈ idxs off gs →
    ∃ g ∈ gs, e.last = lastKey g ∧ e.lastseq = lastSeq g ∧ e.size = (blockBytes g).length % 2 ^ 32 ∧ off ≤ e.off ∧
      e.off + (blockBytes g).length ≤ off + (gs.flatMap blockBytes).length
  | off, [], h => by cases h
  | off, g :: gs, h => by
    rw [flatMap_cons, length_append]
    rcases mem_cons.1 h with rfl | h
    · exact ⟨g, List.mem_cons_self .., rfl, rfl, rfl, le_rfl, by dsimp only; omega⟩
    · obtain ⟨g', hg, h₁, h₂, h₃, h₄, h₅⟩ := mem_idxs h
      exact ⟨g', List.mem_cons_of_mem g hg, h₁, h₂, h₃, by omega, by omega⟩

omit hi hnum hf in
theorem idxs_get (A B : List (List Ent)) (g : List Ent) : (idxs FHDR (A ++ g :: B))[A.length]? =
    some ⟨lastKey g, lastSeq g, FHDR + (A.flatMap blockBytes).length, (blockBytes g).length % 2 ^ 32⟩ := by
  rw [idxs_append, List.getElem?_append_right (by rw [length_idxs]), length_idxs, Nat.sub_self, idxs]
  rfl

omit hi hnum hf in
theorem length_blockBytes_le (hg : g ∈ gs) : (blockBytes g).length ≤ (gs.flatMap blockBytes).length := by
  obtain ⟨p, q, rfl⟩ := List.append_of_mem hg
  simp only [List.flatMap_append, flatMap_cons, length_append]
  omega

omit hi hnum hf in
theorem row_idxs (hfit : ∀ g ∈ gs, ∀ e ∈ g, e.Fits) (hs : indexOff gs < 2 ^ 63) :
    Row (IdxOf (indexOff gs)) (idxs FHDR gs) ((idxs FHDR gs).flatMap putIdxEntry) := by
  refine row_flatMap (fun e he => ?_)
  obtain ⟨g, hg, hlast, hseq, hsize, hoff, hend⟩ := mem_idxs he
  have hF : indexOff gs = FHDR + (gs.flatMap blockBytes).length := rfl
  have hle := length_blockBytes_le hg
  have hmod := Nat.mod_le (blockBytes g).length (2 ^ 32)
  have hlt : e.size < 2 ^ 32 := by
    rw [hsize]
    exact Nat.mod_lt _ (by decide)
  have hkey : (lastKey g).length < 2 ^ 63 ∧ lastSeq g < U64 := by
    rcases List.eq_nil_or_concat g with rfl | ⟨g, x, rfl⟩
    · exact ⟨by decide, by decide⟩
    · rw [List.concat_eq_append] at hg hle ⊢
      rw [lastKey_concat, lastSeq_concat]
      refine ⟨?_, (hfit _ hg x (by simp)).seq⟩
      have h₁ : x.k.length ≤ (putEnt x).length := by
        simp only [putEnt, putBytes, length_append]
        omega
      have h₂ := length_putEnt_le (g := g ++ [x]) (e := x) (by simp)
      have h₃ : ((g ++ [x]).flatMap putEnt).length ≤ (blockBytes (g ++ [x])).length := by
        rw [blockBytes, length_sealBlock]
        omega
      omega
  have hU : U64 = 256 ^ 8 := rfl
  have h64 : (256 : Nat) ^ 8 = 2 ^ 64 := rfl
  refine ⟨putBytes e.last, stringOf_put (by rw [hlast]; exact hkey.1), ⟨?_, by omega, hlt⟩, ⟨hoff, by omega⟩, rfl⟩
  rw [hseq]
  exact hkey.2

omit hi hnum hf in
@[simp] theorem length_bloomOf (hashes : List Nat) : (bloomOf hashes).length = bloomBits hashes.length / 8 + 1 := by
  have hset : ∀ (js : List Nat) (bloom : List Byte) (h : Nat),
      (js.foldl (fun bloom j => setBit bloom (probe (bloomBits hashes.length) h j)) bloom).length = bloom.length := by
    intro js
    induction js with
    | nil => exact fun _ _ => rfl
    | cons j js ih =>
      intro bloom h
      rw [foldl_cons, ih, setBit, List.length_modify]
  have hall : ∀ (hs : List Nat) (bloom : List Byte), (hs.foldl (fun bloom h => (List.range 7).foldl
      (fun bloom j => setBit bloom (probe (bloomBits hashes.length) h j)) bloom) bloom).length = bloom.length := by
    intro hs
    induction hs with
    | nil => exact fun _ => rfl
    | cons h hs ih =>
      intro bloom
      rw [foldl_cons, ih, hset]
  rw [bloomOf, hall, List.length_replicate]

omit hi hnum hf in
@[simp] theorem length_bloomBytes (hashes : List Nat) :
    (bloomBytes hashes).length = bloomBits hashes.length / 8 + 1 + TRAIL := by
  rw [bloomBytes, length_sealBlock, length_bloomOf]

include hi hf in
theorem window_index (hm : m ≤ (indexBytes gs n).length) :
    (f.window (indexOff gs) m).bytes = (indexBytes gs n).take m := by
  refine window_take (a := fhdrBuild identity FK_SORTED num ++ gs.flatMap blockBytes)
    (by rw [hf, sstBytes]; simp only [append_assoc]; rfl) ?_ hm
  rw [length_append, length_fhdrBuild hi, indexOff]

include hi hf in
theorem window_bloom (hm : m ≤ (bloomBytes hashes).length) :
    (f.window (indexOff gs + (indexBytes gs n).length) m).bytes = (bloomBytes hashes).take m := by
  refine window_take (a := fhdrBuild identity FK_SORTED num ++ gs.flatMap blockBytes ++ indexBytes gs n)
    (by rw [hf, sstBytes]; simp only [append_assoc]; rfl) ?_ hm
  simp only [length_append, length_fhdrBuild hi, indexOff]

include hi hnum hf in
/-- **A file whose index and filter fit in 32 bits opens.** -/
theorem fileOpen_fits (hfit : ∀ g ∈ gs, ∀ e ∈ g, e.Fits) (hisz : (indexBytes gs n).length < 2 ^ 32)
    (hbits : bloomBits hashes.length < 2 ^ 32) :
    fileOpen .machine identity num f = .ok ⟨idxs FHDR gs, bloomBits hashes.length, bloomBytes hashes⟩ := by
  have hsmall := f.small
  have hsize : f.bytes.length = _ := size_sst hi hf
  have hbsz := length_bloomBytes hashes
  have hT : TRAIL = 36 := rfl
  have hB : bloomBits hashes.length = hashes.length * 10 + 64 := rfl
  have hilen : (indexBytes gs n).length = ((idxs FHDR gs).flatMap putIdxEntry).length + TRAIL := by
    rw [indexBytes, length_sealBlock]
  rw [fileOpen_eq hi hnum hf, Nat.mod_eq_of_lt hisz, Nat.mod_eq_of_lt (a := (bloomBytes hashes).length) (by omega)]
  have hib : (f.window (indexOff gs) (indexBytes gs n).length).bytes = indexBytes gs n := by
    rw [window_index hi hf le_rfl, take_length]
  have hbb : (f.window (indexOff gs + (indexBytes gs n).length) (bloomBytes hashes).length).bytes =
      bloomBytes hashes := by
    rw [window_bloom hi hf le_rfl, take_length]
  have hrow : whileLeft (idxEntry .machine (indexOff gs))
      ((f.window (indexOff gs) (indexBytes gs n).length).window 0 ((indexBytes gs n).length - TRAIL)).cursor.rest.length
      ((f.window (indexOff gs) (indexBytes gs n).length).window 0 ((indexBytes gs n).length - TRAIL)).cursor =
        .ok (idxs FHDR gs) := by
    refine (whileLeft_iff (spells_idxEntry (indexOff gs)) (IdxOf.ne_nil _) _ _ _ le_rfl).2 ?_
    have hrest : ((f.window (indexOff gs) (indexBytes gs n).length).window 0
        ((indexBytes gs n).length - TRAIL)).cursor.rest =
        (idxs FHDR gs).flatMap putIdxEntry := by
      show ((f.window (indexOff gs) (indexBytes gs n).length).bytes.drop 0).take _ = _
      rw [drop_zero, hib, hilen, Nat.add_sub_cancel, indexBytes, take_sealBlock le_rfl, take_length]
    rw [hrest]
    exact row_idxs hfit (by omega)
  have hget : (f.window (indexOff gs + (indexBytes gs n).length) (bloomBytes hashes).length).get
      ((bloomBytes hashes).length - TRAIL) 4 = bloomBits hashes.length := by
    have hsz : (f.window (indexOff gs + (indexBytes gs n).length) (bloomBytes hashes).length).size =
        (bloomBytes hashes).length := by rw [Buffer.size, hbb]
    have := get_seal (p := f.window (indexOff gs + (indexBytes gs n).length) (bloomBytes hashes).length) hbb hbits
    rwa [hsz] at this
  rw [checkBlock_seal hib, checkBlock_seal hbb]
  dsimp only
  rw [hrow, hget]
  show (if bloomBits hashes.length / 8 + 1 ≠ (bloomBytes hashes).length - TRAIL then corrupt else _) = _
  rw [if_neg (by omega), hbb]
  rfl

include hi hnum hf in
/-- **What an opened file's index is**: entries the index begins with, and not all of them if its size does not fit. -/
theorem fileOpen_part (hfit : ∀ g ∈ gs, ∀ e ∈ g, e.Fits) {ix : FileIndex}
    (ho : fileOpen .machine identity num f = .ok ix) :
    (∃ cs, idxs FHDR gs = ix.index ++ cs ∧ (2 ^ 32 ≤ (indexBytes gs n).length → cs ≠ [])) ∧
      ((bloomBytes hashes).length < 2 ^ 32 → bloomBits hashes.length < 2 ^ 32) := by
  have hsmall := f.small
  have hsize : f.bytes.length = _ := size_sst hi hf
  have hbsz := length_bloomBytes hashes
  have hT : TRAIL = 36 := rfl
  have hB : bloomBits hashes.length = hashes.length * 10 + 64 := rfl
  have hilen : (indexBytes gs n).length = ((idxs FHDR gs).flatMap putIdxEntry).length + TRAIL := by
    rw [indexBytes, length_sealBlock]
  have hmi := Nat.mod_le (indexBytes gs n).length (2 ^ 32)
  have hmb := Nat.mod_le (bloomBytes hashes).length (2 ^ 32)
  have hib := window_index hi hf hmi
  have hbb := window_bloom hi hf hmb
  rw [fileOpen_eq hi hnum hf] at ho
  rcases h₁ : checkBlock (f.window (indexOff gs) ((indexBytes gs n).length % 2 ^ 32)) with stop | u
  · rw [h₁] at ho
    cases ho
  rcases h₂ : checkBlock (f.window (indexOff gs + (indexBytes gs n).length) ((bloomBytes hashes).length % 2 ^ 32)) with
    stop | u'
  · rw [h₁, h₂] at ho
    cases ho
  rw [h₁, h₂] at ho
  have htr : TRAIL ≤ (indexBytes gs n).length % 2 ^ 32 := by
    have hsz : (f.window (indexOff gs) ((indexBytes gs n).length % 2 ^ 32)).size =
        (indexBytes gs n).length % 2 ^ 32 := by
      rw [Buffer.size, hib, List.length_take]
      omega
    rw [← hsz]
    by_contra hc
    rw [checkBlock, if_pos (by omega)] at h₁
    cases h₁
  have hrest : ((f.window (indexOff gs) ((indexBytes gs n).length % 2 ^ 32)).window 0
      ((indexBytes gs n).length % 2 ^ 32 - TRAIL)).cursor.rest =
        ((idxs FHDR gs).flatMap putIdxEntry).take ((indexBytes gs n).length % 2 ^ 32 - TRAIL) := by
    show ((f.window (indexOff gs) _).bytes.drop 0).take _ = _
    rw [drop_zero, hib, List.take_take, min_eq_left (by omega)]
    exact take_sealBlock (by omega) n
  dsimp only at ho
  rcases hw : whileLeft (idxEntry .machine (indexOff gs))
      ((f.window (indexOff gs) ((indexBytes gs n).length % 2 ^ 32)).window 0
        ((indexBytes gs n).length % 2 ^ 32 - TRAIL)).cursor.rest.length
      ((f.window (indexOff gs) ((indexBytes gs n).length % 2 ^ 32)).window 0
        ((indexBytes gs n).length % 2 ^ 32 - TRAIL)).cursor with stop | index
  · rw [hw] at ho
    cases ho
  rw [hw] at ho
  have hrow := (whileLeft_iff (spells_idxEntry (indexOff gs)) (IdxOf.ne_nil _) _ _ _ le_rfl).1 hw
  rw [hrest] at hrow
  obtain ⟨cs, hcs, hne⟩ := hrow.begins (spells_idxEntry (indexOff gs)) (IdxOf.ne_nil _) (row_idxs hfit (by omega))
    (List.take_append_drop _ _) (by omega)
  generalize hb : (f.window (indexOff gs + (indexBytes gs n).length) ((bloomBytes hashes).length % 2 ^ 32)).get
    ((bloomBytes hashes).length % 2 ^ 32 - TRAIL) 4 = bits at ho
  change (if bits / 8 + 1 ≠ (bloomBytes hashes).length % 2 ^ 32 - TRAIL then corrupt else _) = _ at ho
  by_cases hbits : bits / 8 + 1 ≠ (bloomBytes hashes).length % 2 ^ 32 - TRAIL
  · rw [if_pos hbits] at ho
    cases ho
  rw [if_neg hbits] at ho
  cases ho
  refine ⟨⟨cs, hcs, fun hbig => hne (fun hnil => ?_)⟩, fun hlt => ?_⟩
  · have := congrArg List.length hnil
    rw [List.length_drop, List.length_nil] at this
    have := Nat.mod_lt (indexBytes gs n).length (show 0 < 2 ^ 32 by decide)
    omega
  · rw [Nat.mod_eq_of_lt hlt] at hb hbits hbb
    rw [take_length] at hbb
    have hseal : (f.window (indexOff gs + (indexBytes gs n).length) (bloomBytes hashes).length).bytes =
        sealBlock (bloomOf hashes) (bloomBits hashes.length % 2 ^ 32) := by
      rw [hbb, bloomBytes, sealBlock_mod]
    have hsz : (f.window (indexOff gs + (indexBytes gs n).length) (bloomBytes hashes).length).size =
        (bloomBytes hashes).length := by rw [Buffer.size, hbb]
    have hget := get_seal hseal (Nat.mod_lt _ (by decide))
    rw [hsz, hb] at hget
    have hmod := Nat.mod_le (bloomBits hashes.length) (2 ^ 32)
    omega

end Opened

/-! ## The filter -/

def bitSet (bloom : List Byte) (bit : Nat) : Bool :=
  match bloom[bit / 8]? with
  | some b => b.val &&& 2 ^ (bit % 8) != 0
  | none => false

theorem bit_iff (b bit : Nat) : (b &&& 2 ^ bit != 0) = b.testBit bit := by
  rw [Nat.and_two_pow]
  cases b.testBit bit <;> simp

theorem byte_or_val (b : Byte) (bit : Nat) : (byte (b.val ||| 2 ^ (bit % 8))).val = b.val ||| 2 ^ (bit % 8) := by
  rw [byte_val]
  refine Nat.mod_eq_of_lt (Nat.or_lt_two_pow (n := 8) b.isLt ?_)
  exact Nat.pow_lt_pow_right (by decide) (Nat.mod_lt _ (by decide))

theorem bitSet_setBit (bloom : List Byte) (other bit : Nat) :
    bitSet (setBit bloom other) bit = true ↔ bitSet bloom bit = true ∨ bit = other ∧ bit / 8 < bloom.length := by
  rw [bitSet, bitSet, setBit, List.getElem?_modify]
  rcases hb : bloom[bit / 8]? with _ | b
  · have hlen := List.getElem?_eq_none_iff.1 hb
    simp
    omega
  · have hlen : bit / 8 < bloom.length := (List.getElem?_eq_some_iff.1 hb).1
    rw [Option.map_eq_map, Option.map_some]
    dsimp only
    by_cases ho : other / 8 = bit / 8
    · rw [if_pos ho]
      show ((byte (b.val ||| 2 ^ (other % 8))).val &&& 2 ^ (bit % 8) != 0) = true ↔ _
      rw [byte_or_val, bit_iff, bit_iff, Nat.testBit_or, Nat.testBit_two_pow, Bool.or_eq_true, decide_eq_true_eq]
      have hbit : other % 8 = bit % 8 ↔ bit = other := by omega
      rw [hbit, and_iff_left hlen]
    · rw [if_neg ho]
      have hne : bit ≠ other := fun h => ho (by rw [h])
      simp [hne]

theorem bitSet_setBits (bit : Nat) : ∀ (l : List Nat) (bloom : List Byte),
    bitSet (l.foldl setBit bloom) bit = true ↔ bitSet bloom bit = true ∨ bit ∈ l ∧ bit / 8 < bloom.length
  | [], bloom => by simp
  | other :: l, bloom => by
    rw [foldl_cons, bitSet_setBits bit l, bitSet_setBit, setBit, List.length_modify, mem_cons]
    tauto

def marks (hashes : List Nat) : List Nat :=
  hashes.flatMap (fun h => (List.range 7).map (probe (bloomBits hashes.length) h))

/-- **A filter has the bits that its hashes are marked by**, and no other. -/
theorem bitSet_bloomOf {hashes : List Nat} {bit : Nat} (h : bit < bloomBits hashes.length) :
    bitSet (bloomOf hashes) bit = true ↔ bit ∈ marks hashes := by
  have hfold : bloomOf hashes =
      (marks hashes).foldl setBit (List.replicate (bloomBits hashes.length / 8 + 1) (byte 0)) := by
    rw [marks, List.foldl_flatMap]
    simp only [List.foldl_map]
    rfl
  have hzero : bitSet (List.replicate (bloomBits hashes.length / 8 + 1) (byte 0)) bit = false := by
    rw [bitSet, List.getElem?_replicate, if_pos (by omega)]
    simp
  rw [hfold, bitSet_setBits, hzero, List.length_replicate]
  simp
  omega

theorem bloomMay_iff {hashes : List Nat} {k : List Byte} (index : List IdxEntry) :
    bloomMay ⟨index, bloomBits hashes.length, bloomBytes hashes⟩ k = true ↔
      ∀ j < 7, probe (bloomBits hashes.length) (keyHash64 k) j ∈ marks hashes := by
  rw [bloomMay, List.all_eq_true]
  refine forall_congr' (fun j => ?_)
  rw [List.mem_range]
  refine imp_congr_right (fun _ => ?_)
  have hlt : probe (bloomBits hashes.length) (keyHash64 k) j < bloomBits hashes.length := by
    rw [probe]
    exact Nat.mod_lt _ (by rw [bloomBits]; omega)
  have hin : probe (bloomBits hashes.length) (keyHash64 k) j / 8 < (bloomOf hashes).length := by
    rw [length_bloomOf]
    omega
  have happ : (bloomBytes hashes)[probe (bloomBits hashes.length) (keyHash64 k) j / 8]? =
      (bloomOf hashes)[probe (bloomBits hashes.length) (keyHash64 k) j / 8]? := by
    rw [bloomBytes, sealBlock, sealBytes, append_assoc, List.getElem?_append_left hin]
  rw [← bitSet_bloomOf hlt]
  show bitSet (bloomBytes hashes) _ = true ↔ _
  rw [bitSet, happ]
  rfl

/-- **The filter answers true for a key in it.** -/
theorem bloomMay_of {hashes : List Nat} {k : List Byte} (hk : keyHash64 k ∈ hashes) (index : List IdxEntry) :
    bloomMay ⟨index, bloomBits hashes.length, bloomBytes hashes⟩ k = true := by
  rw [bloomMay_iff]
  intro j hj
  exact List.mem_flatMap.2 ⟨_, hk, List.mem_map_of_mem (List.mem_range.2 hj)⟩

end Raw
end Gbasic
