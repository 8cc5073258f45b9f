import Gbasic.LsmSstRead
/-!
# LsmSstSeek — where the iterator stands in a file that is read whole

Over a file whose blocks load as they were written, the searches of the index and of a block end at the first entry that
is not before the target (`seek_lands`), the next entry is the next one written, and stepping back goes to the one
before.
-/
namespace Gbasic
namespace Raw

open Lsm (Status SEAL TRAIL FHDR FOOTER U64)
open Search
open List (eq_nil_or_concat concat_eq_append mem_append flatten_cons map_cons flatten_append length_append length_cons
  length_pos_iff head?_drop length_nil append_nil)

/-- An entry under the sequence that stands for all of the file's, if there is one. -/
def Ent.withSeq (seqOver : Nat) (e : Ent) : Ent := { e with seq := eseq seqOver e.seq }

def isBefore (seqOver : Nat) (k : List Byte) (seq : Nat) (e : Ent) : Bool := entBefore e.k (eseq seqOver e.seq) k seq

structure Loads (identity : List Byte) (m : Sst) (gs : List (List Ent)) (ix : FileIndex) : Prop where
  opens : fileOpen .machine identity m.fileMeta.num m.file = .ok ix
  index : ix.index = idxs FHDR gs
  block : ∀ A g B, gs = A ++ g :: B → ∀ s : Src, s.identity = identity → s.files = [m] →
    s.load 0 A.length = .ok { s with fi := 0, bi := A.length, blk := g }
  filled : ∀ g ∈ gs, g ≠ []
  largest : ∀ e, gs.flatten.getLast? = some e → m.fileMeta.largest = e.k ∧ m.fileMeta.largeSeq = e.seq

/-- It stands on entry `j` of block `g`, which has the blocks `A` before it. -/
structure Src.At (s : Src) (identity : List Byte) (m : Sst) (A : List (List Ent)) (g : List Ent) (j : Nat) : Prop where
  identity : s.identity = identity
  files : s.files = [m]
  fi : s.fi = 0
  bi : s.bi = A.length
  ei : s.ei = j
  blk : s.blk = g
  valid : s.valid = true
  inside : j < g.length

theorem first_isBefore {es : List Ent} (h : InOrder es) (seqOver : Nat) (k : List Byte) (seq : Nat) :
    First (isBefore seqOver k seq) es := by
  refine h.imp (fun {a b} hab hb => ?_)
  simp only [isBefore, entBefore, decide_eq_true_eq, decide_eq_false_iff_not, not_or, not_and, not_lt] at hab hb ⊢
  obtain ⟨hk, hs⟩ := hab
  rcases lt_or_eq_of_le hk with hlt | heq
  · rcases hb with hb | ⟨rfl, -⟩
    · exact .inl (hlt.trans hb)
    · exact .inl hlt
  · rcases hb with hb | ⟨rfl, hb⟩
    · exact .inl (heq ▸ hb)
    · refine .inr ⟨heq, ?_⟩
      have hle := hs heq.symm
      unfold eseq at hb ⊢
      split_ifs at hb ⊢ <;> omega

section Whole

variable {identity : List Byte} {m : Sst} {gs : List (List Ent)} {ix : FileIndex} {s : Src}

def endsBefore (seqOver : Nat) (k : List Byte) (seq : Nat) (g : List Ent) : Bool :=
  entBefore (lastKey g) (eseq seqOver (lastSeq g)) k seq

theorem endsBefore_concat (seqOver : Nat) (k : List Byte) (seq : Nat) (g : List Ent) (e : Ent) :
    endsBefore seqOver k seq (g ++ [e]) = isBefore seqOver k seq e := by
  rw [endsBefore, lastKey_concat, lastSeq_concat]
  rfl

theorem all_before {seqOver : Nat} {k : List Byte} {seq : Nat} {g : List Ent} (hf : First (isBefore seqOver k seq) g)
    (hg : endsBefore seqOver k seq g = true) : ∀ e ∈ g, isBefore seqOver k seq e = true := by
  intro e he
  rcases eq_nil_or_concat g with rfl | ⟨g, x, rfl⟩
  · cases he
  · rw [concat_eq_append] at hf hg he
    rw [endsBefore_concat] at hg
    rcases mem_append.1 he with he | he
    · exact hf.append.2.2 e he x (by simp) hg
    · rw [List.mem_singleton.1 he]
      exact hg

theorem first_endsBefore {seqOver : Nat} {k : List Byte} {seq : Nat} : ∀ {gs : List (List Ent)},
    (∀ g ∈ gs, g ≠ []) → First (isBefore seqOver k seq) gs.flatten → First (endsBefore seqOver k seq) gs
  | [], _, _ => .nil
  | g :: gs, hne, hf => by
    rw [flatten_cons] at hf
    obtain ⟨-, h₂, h₃⟩ := hf.append
    refine List.pairwise_cons.2 ⟨fun g' hg' hp => ?_, first_endsBefore
      (fun g' hg' => hne g' (List.mem_cons_of_mem g hg')) h₂⟩
    have hg := hne g (List.mem_cons_self ..)
    have hg₂ := hne g' (List.mem_cons_of_mem g hg')
    rcases eq_nil_or_concat g with rfl | ⟨g, x, rfl⟩
    · exact absurd rfl hg
    rcases eq_nil_or_concat g' with rfl | ⟨g', y, rfl⟩
    · exact absurd rfl hg₂
    rw [concat_eq_append] at *
    rw [endsBefore_concat] at hp ⊢
    exact h₃ x (by simp) y (List.mem_flatten.2 ⟨_, hg', by simp⟩) hp

theorem idxs_map : ∀ (off : Nat) (gs : List (List Ent)),
    (idxs off gs).map (fun e => (e.last, e.lastseq)) = gs.map (fun g => (lastKey g, lastSeq g))
  | _, [] => rfl
  | off, g :: gs => by rw [idxs, map_cons, idxs_map, map_cons]

theorem search_index (off seqOver : Nat) (k : List Byte) (seq : Nat) (hne : ∀ g ∈ gs, g ≠ [])
    (hf : First (isBefore seqOver k seq) gs.flatten) :
    searchList (fun e : IdxEntry => entBefore e.last (eseq seqOver e.lastseq) k seq) (idxs off gs) =
      (gs.takeWhile (endsBefore seqOver k seq)).length := by
  rw [← searchList_eq (first_endsBefore hne hf)]
  have h₁ := searchList_map (fun x : List Byte × Nat => entBefore x.1 (eseq seqOver x.2) k seq)
    (fun e : IdxEntry => (e.last, e.lastseq)) (idxs off gs)
  have h₂ := searchList_map (fun x : List Byte × Nat => entBefore x.1 (eseq seqOver x.2) k seq)
    (fun g : List Ent => (lastKey g, lastSeq g)) gs
  rw [idxs_map, ← h₂] at h₁
  exact h₁

variable (h : Loads identity m gs ix)

include h in
theorem opened_ok (hi : s.identity = identity) (hf : s.files = [m]) : s.opened 0 = .ok ix := by
  rw [Src.opened, hf, hi]
  exact h.opens

structure Parts (gs : List (List Ent)) (p : Ent → Bool) (A : List (List Ent)) (g : List Ent) (j : Nat)
    (B : List (List Ent)) : Prop where
  blocks : gs = A ++ g :: B
  before : ∀ e ∈ A.flatten ++ g.take j, p e = true
  after : ∀ e ∈ g.drop j ++ B.flatten, p e = false

theorem Parts.flat {p : Ent → Bool} {A B : List (List Ent)} {g : List Ent} {j : Nat} (hp : Parts gs p A g j B) :
    gs.flatten = (A.flatten ++ g.take j) ++ (g.drop j ++ B.flatten) := by
  rw [hp.blocks, flatten_append, flatten_cons]
  conv_lhs => rw [← List.take_append_drop j g]
  simp only [List.append_assoc]

include h in
/-- **A seek stands on the first entry that is not before**, or is not valid if all are. -/
theorem seek_lands (ho : InOrder gs.flatten) (hgs : gs ≠ []) (hi : s.identity = identity) (hf : s.files = [m])
    (k : List Byte) (seq : Nat) : ∃ s', s.seek k seq = .ok s' ∧
      ((∃ A g j B, s'.At identity m A g j ∧ Parts gs (isBefore m.fileMeta.seqOver k seq) A g j B) ∨
        (s'.valid = false ∧ s'.identity = identity ∧ s'.files = [m] ∧
          ∀ e ∈ gs.flatten, isBefore m.fileMeta.seqOver k seq e = true)) := by
  have hfirst := first_isBefore ho m.fileMeta.seqOver k seq
  -- the last entry of all
  obtain ⟨G, z, hz⟩ : ∃ G z, gs = G ++ [z] := by
    rcases eq_nil_or_concat gs with rfl | ⟨G, z, rfl⟩
    · exact absurd rfl hgs
    · exact ⟨G, z, concat_eq_append⟩
  obtain ⟨y, x, hx⟩ : ∃ y x, z = y ++ [x] := by
    rcases eq_nil_or_concat z with rfl | ⟨y, x, rfl⟩
    · exact absurd rfl (h.filled [] (by rw [hz]; simp))
    · exact ⟨y, x, concat_eq_append⟩
  have hflat : gs.flatten = (G.flatten ++ y) ++ [x] := by rw [hz, hx]; simp
  have hlast : gs.flatten.getLast? = some x := by rw [hflat]; simp
  obtain ⟨hk, hs⟩ := h.largest x hlast
  have hmp : entBefore m.fileMeta.largest (eseq m.fileMeta.seqOver m.fileMeta.largeSeq) k seq =
      isBefore m.fileMeta.seqOver k seq x := by
    rw [hk, hs]
    rfl
  have hsearch : searchList (fun m : Sst => entBefore m.fileMeta.largest
      (eseq m.fileMeta.seqOver m.fileMeta.largeSeq) k seq)
      s.files = if isBefore m.fileMeta.seqOver k seq x = true then 1 else 0 := by
    rw [hf, searchList_one, hmp]
  rw [Src.seek, hsearch]
  by_cases hp : isBefore m.fileMeta.seqOver k seq x = true
  · rw [if_pos hp]
    refine ⟨{ s with valid := false }, ?_, .inr ⟨rfl, hi, hf, fun e he => ?_⟩⟩
    · rw [show s.files.length = 1 by rw [hf]; rfl]
      rfl
    rw [hflat] at he hfirst
    rcases mem_append.1 he with he | he
    · exact hfirst.append.2.2 e he x (by simp) hp
    · rw [List.mem_singleton.1 he]
      exact hp
  rw [if_neg hp]
  -- the block
  have hpz : endsBefore m.fileMeta.seqOver k seq z = false := by
    rw [hx, endsBefore_concat]
    simpa using hp
  have hfb := first_endsBefore h.filled hfirst
  rcases hd : gs.dropWhile (endsBefore m.fileMeta.seqOver k seq) with _ | ⟨g, B⟩
  · have hall := List.dropWhile_eq_nil_iff.1 hd z (by rw [hz]; simp)
    rw [hpz] at hall
    cases hall
  let A := gs.takeWhile (endsBefore m.fileMeta.seqOver k seq)
  have hblocks : gs = A ++ g :: B := by rw [← hd]; exact (List.takeWhile_append_dropWhile ..).symm
  have hg : endsBefore m.fileMeta.seqOver k seq g = false := hfb.dropWhile g (by rw [hd]; simp)
  have hlt : A.length ≠ ix.index.length := by
    have := congrArg List.length hblocks
    rw [length_append, length_cons] at this
    rw [h.index, length_idxs]
    omega
  rw [hblocks, flatten_append, flatten_cons] at hfirst
  obtain ⟨hfA, hfg, hAg⟩ := hfirst.append
  obtain ⟨hfg, hfB, hgB⟩ := hfg.append
  -- the entry
  have hdrop : g.dropWhile (isBefore m.fileMeta.seqOver k seq) ≠ [] := by
    intro hnil
    have hall := List.dropWhile_eq_nil_iff.1 hnil
    have hgne := h.filled g (by rw [hblocks]; simp)
    rcases eq_nil_or_concat g with rfl | ⟨g', w, rfl⟩
    · exact hgne rfl
    · rw [concat_eq_append] at hg hall
      rw [endsBefore_concat, hall w (by simp)] at hg
      cases hg
  have hsplit := List.takeWhile_append_dropWhile (p := isBefore m.fileMeta.seqOver k seq) (l := g)
  have hlen : (g.takeWhile (isBefore m.fileMeta.seqOver k seq)).length < g.length := by
    have := congrArg List.length hsplit
    rw [length_append] at this
    have := length_pos_iff.2 hdrop
    omega
  have hload := h.block A g B hblocks { s with valid := false } hi hf
  have hblo := search_index FHDR m.fileMeta.seqOver k seq h.filled (first_isBefore ho m.fileMeta.seqOver k seq)
  let s' : Src := { s with
    fi := 0
    bi := A.length
    ei := (g.takeWhile (isBefore m.fileMeta.seqOver k seq)).length
    blk := g
    valid := true }
  refine ⟨s', ?_, .inl ⟨A, g, _, B, ⟨hi, hf, rfl, rfl, rfl, rfl, rfl, hlen⟩, hblocks, ?_, ?_⟩⟩
  · have hopen : ({ s with valid := false } : Src).opened 0 = .ok ix := opened_ok h hi hf
    have hmem : member ({ s with valid := false } : Src).files 0 = .ok m := by
      show member s.files 0 = _
      rw [hf]
      rfl
    have helo : searchList (fun e : Ent => entBefore e.k (eseq m.fileMeta.seqOver e.seq) k seq) g =
        (g.takeWhile (isBefore m.fileMeta.seqOver k seq)).length := searchList_eq hfg
    rw [show s.files.length - 0 = 0 + 1 by rw [hf]; rfl, Src.seekFrom, hmem, hopen]
    simp only [bind, Except.bind]
    rw [h.index, hblo, ← h.index, if_neg hlt, hload]
    dsimp only
    rw [helo, if_pos hlen]
    rfl
  · rw [take_takeWhile]
    intro e he
    rcases mem_append.1 he with he | he
    · obtain ⟨a, ha, he⟩ := List.mem_flatten.1 he
      have hfa : First (isBefore m.fileMeta.seqOver k seq) a := by
        obtain ⟨p, q, hA⟩ := List.append_of_mem ha
        rw [hA] at hfA
        simp only [flatten_append, flatten_cons] at hfA
        exact hfA.append.2.1.append.1
      exact all_before hfa (List.mem_takeWhile_imp ha) e he
    · exact List.mem_takeWhile_imp he
  · rw [drop_takeWhile]
    have hafter := hfg.dropWhile
    intro e he
    rcases mem_append.1 he with he | he
    · exact hafter e he
    · obtain ⟨w, hw⟩ := List.exists_mem_of_ne_nil _ hdrop
      by_contra hc
      have := hgB w ((List.dropWhile_suffix _).subset hw) e he (by simpa using hc)
      rw [hafter w hw] at this
      cases this

variable {A B : List (List Ent)} {g : List Ent} {j : Nat}

theorem Src.At.here_eq (hs : s.At identity m A g j) : s.here = .ok
    ((g.drop j).head?.map (Ent.withSeq m.fileMeta.seqOver)) := by
  have hin := hs.inside
  have hget : g[j]? = some g[j] := List.getElem?_eq_getElem hin
  rw [Src.here, if_pos hs.valid, Src.ent, hs.files, hs.fi, hs.blk, hs.ei, head?_drop]
  simp only [member, hget]
  rfl

include h in
theorem next_lands (hs : s.At identity m A g j) (hb : gs = A ++ g :: B) : ∃ s', s.next = .ok s' ∧
    ((s'.At identity m A g (j + 1)) ∨
      (g.length = j + 1 ∧ ∃ g' B', B = g' :: B' ∧ s'.At identity m (A ++ [g]) g' 0) ∨
      (g.length = j + 1 ∧ B = [] ∧ s'.valid = false)) := by
  have hj := hs.inside
  rw [Src.next, if_pos hs.valid, hs.ei, hs.blk]
  by_cases hlt : j + 1 < g.length
  · rw [if_pos hlt]
    exact ⟨_, rfl, .inl ⟨hs.identity, hs.files, hs.fi, hs.bi, rfl, rfl, hs.valid, hlt⟩⟩
  rw [if_neg hlt, hs.fi, hs.bi, Src.turns, Src.stepOn, opened_ok h hs.identity hs.files]
  simp only [bind, Except.bind]
  have hlen := congrArg List.length hb
  rw [length_append, length_cons] at hlen
  rcases B with _ | ⟨g', B'⟩
  · rw [length_nil] at hlen
    rw [h.index, length_idxs, if_pos (by omega), hs.files]
    exact ⟨_, rfl, .inr (.inr ⟨by omega, rfl, rfl⟩)⟩
  · rw [length_cons] at hlen
    have hb' : gs = (A ++ [g]) ++ g' :: B' := by rw [hb]; simp
    have hload := h.block (A ++ [g]) g' B' hb' s hs.identity hs.files
    rw [length_append, List.length_singleton] at hload
    have hne := h.filled g' (by rw [hb]; simp)
    rw [h.index, length_idxs, if_neg (by omega), hload]
    dsimp only
    rw [if_pos hne]
    refine ⟨_, rfl, .inr (.inl ⟨by omega, g', B', rfl, hs.identity, hs.files, rfl, ?_, rfl, rfl, hs.valid, ?_⟩)⟩
    · simp
    · exact length_pos_iff.2 hne

include h in
/-- **Going on gives the entries from there on.** -/
theorem entries_lands : ∀ (n : Nat) {s : Src} {A B : List (List Ent)} {g : List Ent} {j : Nat},
    s.At identity m A g j → gs = A ++ g :: B → (g.drop j ++ B.flatten).length < n →
      s.entries n = .ok ((g.drop j ++ B.flatten).map (Ent.withSeq m.fileMeta.seqOver))
  | 0, _, _, _, _, _, _, _, hn => by cases hn
  | n + 1, s, A, B, g, j, hs, hb, hn => by
    have hj := hs.inside
    have hdrop : g.drop j = g[j] :: g.drop (j + 1) := List.drop_eq_getElem_cons hj
    have hent : s.ent = .ok (Ent.withSeq m.fileMeta.seqOver g[j]) := by
      rw [Src.ent, hs.files, hs.fi, hs.blk, hs.ei]
      simp only [member, List.getElem?_eq_getElem hj]
      rfl
    obtain ⟨s', hnext, hland⟩ := next_lands h hs hb
    rw [Src.entries, if_pos hs.valid, hent, hnext]
    rw [hdrop, List.cons_append, length_cons] at hn
    rw [hdrop, List.cons_append, map_cons]
    have hrest : s'.entries n = .ok ((g.drop (j + 1) ++ B.flatten).map (Ent.withSeq m.fileMeta.seqOver)) := by
      rcases hland with hland | ⟨hlen, g', B', rfl, hland⟩ | ⟨hlen, rfl, hland⟩
      · exact entries_lands n hland hb (by omega)
      · have hnil : g.drop (j + 1) = [] := List.drop_of_length_le (by omega)
        rw [hnil, List.nil_append] at hn ⊢
        have := entries_lands n hland (B := B') (by rw [hb]; simp)
          (by simpa using Nat.lt_of_succ_lt_succ hn)
        simpa using this
      · have hnil : g.drop (j + 1) = [] := List.drop_of_length_le (by omega)
        rw [hnil] at hn ⊢
        cases n with
        | zero => cases hn; contradiction
        | succ n =>
          rw [Src.entries, hland]
          rfl
    simp only [bind, Except.bind, hrest]
    rfl

include h in
theorem stepBack_lands (hi : s.identity = identity) (hf : s.files = [m]) (n : Nat) (hb : gs = A ++ B) :
    ∃ s', s.stepBack (n + 1) 0 A.length = .ok s' ∧
      ((A = [] ∧ s'.valid = false) ∨ ∃ A' g', A = A' ++ [g'] ∧ s'.At identity m A' g' (g'.length - 1)) := by
  rcases eq_nil_or_concat A with rfl | ⟨A', g', rfl⟩
  · refine ⟨{ s with valid := false }, ?_, .inl ⟨rfl, rfl⟩⟩
    rw [length_nil, Src.stepBack, if_pos rfl]
    rfl
  · rw [concat_eq_append] at hb ⊢
    have hb' : gs = A' ++ g' :: B := by rw [hb]; simp
    have hne := h.filled g' (by rw [hb']; simp)
    have hpos := length_pos_iff.2 hne
    refine ⟨{ s with fi := 0, bi := A'.length, blk := g', ei := g'.length - 1, valid := true }, ?_,
      .inr ⟨A', g', rfl, hi, hf, rfl, rfl, rfl, rfl, rfl, by omega⟩⟩
    rw [length_append, List.length_singleton, Src.stepBack, h.block A' g' B hb' s hi hf]
    simp only [bind, Except.bind]
    rw [if_pos hne]
    rfl

include h in
theorem stepBack_end (hi : s.identity = identity) (hf : s.files = [m]) (n : Nat) (hb : gs = A ++ [g]) :
    ∃ s', s.stepBack (n + 1) 1 0 = .ok s' ∧ s'.At identity m A g (g.length - 1) := by
  have hne := h.filled g (by rw [hb]; simp)
  have hpos := length_pos_iff.2 hne
  have hlen : gs.length = A.length + 1 := by rw [hb]; simp
  refine ⟨{ s with fi := 0, bi := A.length, blk := g, ei := g.length - 1, valid := true }, ?_,
    hi, hf, rfl, rfl, rfl, rfl, rfl, by omega⟩
  rw [Src.stepBack, if_neg (by decide), opened_ok h hi hf]
  simp only [bind, Except.bind]
  rw [h.index, length_idxs, if_neg (by omega), show gs.length - 1 = A.length by omega, h.block A g [] hb s hi hf]
  dsimp only
  rw [if_pos hne]
  rfl

theorem head_drop_last (l : List Ent) : (l.drop (l.length - 1)).head? = l.getLast? := by
  rw [head?_drop, List.getLast?_eq_getElem?]

include h in
/-- **A seek for the last before** stands on it, or is not valid if there is none. -/
theorem seekLt_lands (ho : InOrder gs.flatten) (hgs : gs ≠ []) (hi : s.identity = identity) (hf : s.files = [m])
    (k : List Byte) (seq : Nat) : ∃ s', s.seekLt k seq = .ok s' ∧
      s'.here = .ok ((gs.flatten.reverse.find? (isBefore m.fileMeta.seqOver k seq)).map
        (Ent.withSeq m.fileMeta.seqOver)) := by
  obtain ⟨s₁, hseek, hland⟩ := seek_lands h ho hgs hi hf k seq
  have hnone : ∀ t : Src, t.valid = false → t.here = .ok none := by
    intro t ht
    rw [Src.here, ht]
    rfl
  rw [Src.seekLt, hseek]
  simp only [bind, Except.bind]
  rcases hland with ⟨A, g, j, B, hat, hp⟩ | ⟨hv, hi₁, hf₁, hall⟩
  · have hflat := hp.flat
    rw [hflat, find_before hp.before hp.after, if_pos hat.valid, hat.ei]
    by_cases hj : 0 < j
    · rw [if_pos hj]
      have hin := hat.inside
      have hat' : Src.At { s₁ with ei := j - 1 } identity m A g (j - 1) :=
        ⟨hat.identity, hat.files, hat.fi, hat.bi, rfl, hat.blk, hat.valid, by omega⟩
      refine ⟨_, rfl, ?_⟩
      rw [hat'.here_eq]
      have hl : (A.flatten ++ g.take j).getLast? = (g.drop (j - 1)).head? := by
        rw [List.getLast?_append_of_ne_nil _ (by
            intro hnil
            have := congrArg List.length hnil
            rw [List.length_take, length_nil] at this
            omega), head?_drop, List.getLast?_eq_getElem?, List.length_take, min_eq_left (by omega),
          List.getElem?_take_of_lt (by omega)]
      rw [hl]
    · have hj : j = 0 := by omega
      subst hj
      rw [if_neg (by decide), hat.fi, hat.bi, Src.turns]
      obtain ⟨s', hback, hland⟩ := stepBack_lands h hat.identity hat.files _ hp.blocks
      refine ⟨s', hback, ?_⟩
      rw [List.take_zero, append_nil]
      rcases hland with ⟨rfl, hv⟩ | ⟨A', g', rfl, hat'⟩
      · rw [hnone s' hv]
        rfl
      · have hne := h.filled g' (by rw [hp.blocks]; simp)
        rw [hat'.here_eq, head_drop_last]
        simp [List.getLast?_append_of_ne_nil _ hne]
  · rw [if_neg (by rw [hv]; decide), hf₁, Src.turns]
    obtain ⟨G, z, hz⟩ : ∃ G z, gs = G ++ [z] := by
      rcases eq_nil_or_concat gs with rfl | ⟨G, z, rfl⟩
      · exact absurd rfl hgs
      · exact ⟨G, z, concat_eq_append⟩
    obtain ⟨s', hback, hat⟩ := stepBack_end h hi₁ hf₁ (s₁.files.map (fun m => m.file.size + 1)).sum hz
    have hne := h.filled z (by rw [hz]; simp)
    refine ⟨s', hback, ?_⟩
    have hfind := find_before (m := []) hall (fun a ha => by cases ha)
    rw [append_nil] at hfind
    rw [hat.here_eq, head_drop_last, hfind, hz, flatten_append]
    simp [List.getLast?_append_of_ne_nil _ hne]

include h in
theorem seek_here (ho : InOrder gs.flatten) (hgs : gs ≠ []) (hi : s.identity = identity) (hf : s.files = [m])
    (k : List Byte) (seq : Nat) : ∃ s', s.seek k seq = .ok s' ∧
      s'.here = .ok ((gs.flatten.find? (fun e => !isBefore m.fileMeta.seqOver k seq e)).map
        (Ent.withSeq m.fileMeta.seqOver)) := by
  obtain ⟨s', hseek, hland⟩ := seek_lands h ho hgs hi hf k seq
  refine ⟨s', hseek, ?_⟩
  rcases hland with ⟨A, g, j, B, hat, hp⟩ | ⟨hv, -, -, hall⟩
  · have hflat := hp.flat
    have hne : g.drop j ≠ [] := by
      have := hat.inside
      intro hnil
      have := congrArg List.length hnil
      rw [List.length_drop, length_nil] at this
      omega
    rw [hat.here_eq, hflat, find_after hp.before hp.after, List.head?_append_of_ne_nil _ hne]
  · have hfind := find_after (m := []) hall (fun a ha => by cases ha)
    rw [append_nil] at hfind
    rw [Src.here, hv, hfind]
    rfl

include h in
theorem seek_all (ho : InOrder gs.flatten) (hgs : gs ≠ []) (hi : s.identity = identity) (hf : s.files = [m])
    (hmax : ∀ e ∈ gs.flatten, isBefore m.fileMeta.seqOver [] (U64 - 1) e = false) :
    ∃ s', s.seek [] (U64 - 1) = .ok s' ∧ ∀ n, gs.flatten.length < n →
      s'.entries n = .ok (gs.flatten.map (Ent.withSeq m.fileMeta.seqOver)) := by
  obtain ⟨s', hseek, hland⟩ := seek_lands h ho hgs hi hf [] (U64 - 1)
  refine ⟨s', hseek, fun n hn => ?_⟩
  rcases hland with ⟨A, g, j, B, hat, hp⟩ | ⟨hv, -, -, hall⟩
  · have hnil : A.flatten ++ g.take j = [] := by
      rw [List.eq_nil_iff_forall_not_mem]
      intro e he
      have h₁ := hp.before e he
      rw [hmax e (by
        rw [hp.blocks, flatten_append, flatten_cons]
        rcases mem_append.1 he with he | he
        · exact List.mem_append_left _ he
        · exact List.mem_append_right _ (List.mem_append_left _ (List.mem_of_mem_take he)))] at h₁
      cases h₁
    have hflat : gs.flatten = g.drop j ++ B.flatten := by rw [hp.flat, hnil, List.nil_append]
    rw [hflat] at hn ⊢
    exact entries_lands h n hat hp.blocks hn
  · exfalso
    obtain ⟨g, hg⟩ := List.exists_mem_of_ne_nil gs hgs
    obtain ⟨e, he⟩ := List.exists_mem_of_ne_nil g (h.filled g hg)
    have hm := List.mem_flatten.2 ⟨g, hg, he⟩
    have h₁ := hall e hm
    rw [hmax e hm] at h₁
    cases h₁

end Whole

end Raw
end Gbasic
