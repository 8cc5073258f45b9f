import Gbasic.XsortWeight
/-!
# XsortStable — when what is sorted comes back

A sorter that holds everything hands out its entries.  One that has written runs merges them, and hands out everything
as long as each pair is written whole and there are numbers for the runs: an entry whose lengths sum to `2 ^ 32` is
written without its bytes, and the files are then too short for what was given.
-/
namespace Gbasic
namespace Xsort

open StableSort (Ascends IsStableSort Merged SameByKey perm_of_sameByKey)
open List (Forall₂ mem_cons length_pos_iff length_append length_singleton)

variable {s s' : GsXsort} {full : List (List Pair)} {pairs cur : List Pair} {budget : Nat} {p : Pair}

/-! ## Everything held -/

theorem yields_held : ∀ {n : Nat} {s : GsXsort}, s.ents.length - s.nextAt = n → s.finished = true → s.ids = [] →
    Yields s ((s.ents.drop s.nextAt).map Ent.pair) := by
  intro n
  induction n with
  | zero =>
    intro s hn hfin hids
    have hend : s.ents.drop s.nextAt = [] := List.drop_eq_nil_of_le (by omega)
    rw [hend]
    refine ⟨s, ?_⟩
    rw [next, hfin, if_neg (by simp), if_pos hids, List.getElem?_eq_none (by omega)]
  | succ n ih =>
    intro s hn hfin hids
    have hlt : s.nextAt < s.ents.length := by omega
    rw [List.drop_eq_getElem_cons hlt, List.map_cons]
    refine ⟨{ s with nextAt := s.nextAt + 1 }, ?_, ?_⟩
    · rw [next, if_neg (by rw [hfin]; simp), if_pos hids, List.getElem?_eq_getElem hlt]
      rfl
    · exact ih (s := { s with nextAt := s.nextAt + 1 }) (by dsimp only; omega) hfin hids

/-! ## Runs merged -/

/-- **A merge handed out** is its runs' stable merge. -/
theorem yields_at : ∀ {n : Nat} {m : Merge} {ls : List (List Pair)}, m.size ≤ n → MergeAt m ls →
    ∃ out, Merged Prod.fst ls out ∧ ∀ s : GsXsort, s.finished = true → s.ids ≠ [] →
      (if s.nextAt ≠ 0 then advance s.merge else .ok s.merge) = .ok m → Yields s out := by
  have hend : ∀ {m : Merge} {ls : List (List Pair)}, MergeAt m ls → m.heap = [] →
      ∃ out, Merged Prod.fst ls out ∧ ∀ s : GsXsort, s.finished = true → s.ids ≠ [] →
        (if s.nextAt ≠ 0 then advance s.merge else .ok s.merge) = .ok m → Yields s out := by
    intro m ls h hheap
    refine ⟨[], .nil (h.top_none hheap), fun s hfin hids hm => ⟨{ s with merge := m, nextAt := 1 }, ?_⟩⟩
    rw [next, if_neg (by rw [hfin]; simp), if_neg hids, hm]
    dsimp only
    rw [show m.top = none by rw [Merge.top, hheap]; rfl]
    rfl
  intro n
  induction n with
  | zero =>
    intro m ls hn h
    unfold Merge.size at hn
    exact hend h (List.length_eq_zero_iff.1 (by omega))
  | succ n ih =>
    intro m ls hn h
    rcases hheap : m.heap with _ | ⟨top, l⟩
    · exact hend h hheap
    · obtain ⟨p, ps, r, m', hr, hat, hleast, hrun, hm'⟩ := advance_at h hheap
      obtain ⟨out, hout, hall⟩ := ih (by have := advance_size hrun; omega) hm'
      refine ⟨p :: out, .cons hleast hout, fun s hfin hids hm => ⟨{ s with merge := m, nextAt := 1 }, ?_, ?_⟩⟩
      · have htop : m.top = some r := by
          rw [Merge.top, hheap]
          exact hr
        rw [next, if_neg (by rw [hfin]; simp), if_neg hids, hm]
        dsimp only
        rw [htop, Option.map_some, hat.key, hat.value]
      · exact hall _ hfin hids hrun

/-! ## A whole run -/

/-- What the sorter is for: the pairs given are handed out as their stable sort. -/
def Sorts (budget : Nat) (pairs : List Pair) : Prop :=
  ∃ s s' out, addAll (opened budget) pairs = .ok s ∧ finish s = .ok s' ∧ Yields s' out ∧ IsStableSort Prod.fst pairs out

/-- The pairs fit the budget together, or they are cut into no more batches than there are numbers for and no pair's
lengths wrap to zero. -/
def Sortable (budget : Nat) (pairs : List Pair) : Prop :=
  let b := batches (opened budget).budget pairs
  b.1 = [] ∨ (b.1.length < 2 ^ 31 ∧ ∀ p ∈ pairs, p.1.length + p.2.length ≠ 2 ^ 32)

theorem opened_adding (budget : Nat) : Adding (opened budget) [] [] where
  finished := rfl
  nextAt := rfl
  ents := rfl
  seqs := List.Pairwise.nil
  seq := fun e he => by cases he
  used := rfl
  files := ⟨[], Forall₂.nil, Forall₂.nil⟩
  ids := rfl
  cap := ⟨Nat.le_refl 0, Or.inl rfl⟩

theorem same_flatten : ∀ {ls ms : List (List Pair)}, Forall₂ (IsStableSort Prod.fst) ls ms →
    SameByKey Prod.fst ms.flatten ls.flatten
  | [], [], .nil => SameByKey.refl []
  | _ :: _, _ :: _, .cons h hs => by
    rw [List.flatten_cons, List.flatten_cons]
    exact h.same.append (same_flatten hs)

theorem ascends_all : ∀ {ls ms : List (List Pair)}, Forall₂ (IsStableSort Prod.fst) ls ms →
    ∀ l ∈ ms, Ascends Prod.fst l
  | [], [], .nil, _, hl => by cases hl
  | _ :: _, _ :: _, .cons h hs, l, hl => by
    rcases mem_cons.1 hl with rfl | hl
    · exact h.ascends
    · exact ascends_all hs l hl

theorem whole_of (h : Fits p) (hsum : p.1.length + p.2.length ≠ 2 ^ 32) : Whole p := by
  have hk : p.1.length ≤ 2 ^ 32 - 1 := h.1
  have hv : p.2.length ≤ 2 ^ 32 - 1 := h.2
  exact ⟨by omega, by omega, hsum⟩

theorem Adding.room (h : Adding s full []) (hlen : full.length ≤ 2 ^ 31) : Room s := by
  have hids := h.ids
  have hnext := h.nextid
  have hl := h.length
  refine ⟨?_, ?_, by omega, by omega⟩
  · rw [hids]
    exact List.nodup_range
  · intro id hid
    rw [hids, List.mem_range] at hid
    exact hid

/-- **A sorter that holds everything** hands it out sorted. -/
theorem finish_held (h : Adding s [] pairs) :
    ∃ s' out, finish s = .ok s' ∧ Yields s' out ∧ IsStableSort Prod.fst pairs out := by
  have hids : s.ids = [] := List.length_eq_zero_iff.1 h.length
  refine ⟨{ s with finished := true, ents := sortArena s.ents }, (sortArena s.ents).map Ent.pair, ?_, ?_, ?_⟩
  · rw [finish, if_neg (by rw [h.finished]; simp), if_pos hids]
  · have hyields := yields_held (s := { s with finished := true, ents := sortArena s.ents }) rfl rfl hids
    have hall : (sortArena s.ents).drop s.nextAt = sortArena s.ents := by rw [h.nextAt, List.drop_zero]
    dsimp only at hyields
    rw [hall] at hyields
    exact hyields
  · rw [← h.ents]
    exact sortArena_stable h.seqs

theorem finish_spilled (h : Adding s full cur) (hne : full ≠ []) (hcur : cur ≠ []) :
    (full.length < 2 ^ 31 ∧ ∃ s₁, Adding s₁ (full ++ [cur]) [] ∧ finish s =
      match mergePasses s₁ with
      | .error e => .error e
      | .ok s =>
        match openRuns s.files s.ids with
        | .error e => .error e
        | .ok m => .ok { s with finished := true, ents := [], merge := m, nextAt := 0 }) ∨
    (full.length = 2 ^ 31 ∧ finish s = .error .enomem) := by
  have hids : s.ids ≠ [] := by
    have hl := h.length
    have := length_pos_iff.2 hne
    rw [← length_pos_iff]
    omega
  have hents : s.ents ≠ [] := by
    intro hnil
    have hc := h.ents
    rw [hnil] at hc
    exact hcur hc.symm
  rw [finish, if_neg (by rw [h.finished]; simp), if_neg hids, if_pos hents]
  rcases spill_cases h with ⟨hlt, s₁, hs₁, -, h₁⟩ | ⟨hfull, herr⟩
  · refine Or.inl ⟨hlt, s₁, h₁, ?_⟩
    generalize spill s = x at hs₁ ⊢
    subst hs₁
    rfl
  · refine Or.inr ⟨hfull, ?_⟩
    rw [herr]

/-- **A sorter that has written runs** hands everything out sorted, where every pair is written whole. -/
theorem finish_merged (h : Adding s full cur) (hne : full ≠ []) (hcur : cur ≠ []) (hlen : full.length < 2 ^ 31)
    (hwhole : ∀ p ∈ full.flatten ++ cur, Whole p) :
    ∃ s' out, finish s = .ok s' ∧ Yields s' out ∧ IsStableSort Prod.fst (full.flatten ++ cur) out := by
  rcases finish_spilled h hne hcur with ⟨-, s₁, h₁, hfinish⟩ | ⟨hfull, -⟩
  · obtain ⟨ls, hfiles, hsorts⟩ := h₁.files
    have hall : (full ++ [cur]).flatten = full.flatten ++ cur := by rw [List.flatten_append, List.flatten_singleton]
    have hsame : SameByKey Prod.fst ls.flatten (full.flatten ++ cur) := by
      rw [← hall]
      exact same_flatten hsorts
    have hrun : Runnable ls := ⟨ascends_all hsorts,
      fun l hl p hp => hwhole p (hsame.mem.1 (List.mem_flatten.2 ⟨l, hl, hp⟩))⟩
    have hmany : (full ++ [cur]).length ≤ 2 ^ 31 := by
      rw [length_append, length_singleton]
      omega
    have hids : s₁.ids ≠ [] := by
      rw [← length_pos_iff, h₁.length, length_append, length_singleton]
      omega
    obtain ⟨s₂, ms, hs₂, hids₂, hruns, hsame₂, hrun₂⟩ := mergePasses_at rfl hids ⟨hfiles, h₁.room hmany⟩ hrun
    obtain ⟨m, hopen, hm⟩ := openRuns_at hruns.files hrun₂.whole
    obtain ⟨out, hmerged, hyields⟩ := yields_at (Nat.le_refl _) hm
    have hsort := hmerged.isStableSort hrun₂.ascends
    refine ⟨{ s₂ with finished := true, ents := [], merge := m, nextAt := 0 }, out, ?_, ?_,
      hsort.ascends, (hsort.same.trans hsame₂).trans hsame⟩
    · rw [hfinish, hs₂]
      dsimp only
      rw [hopen]
    · exact hyields _ rfl hids₂ rfl
  · omega

/-! ## Files too short -/

theorem pairsSize_perm {l m : List Pair} (h : l.Perm m) : pairsSize l = pairsSize m :=
  (h.map _).sum_eq

theorem putPair_length (p : Pair) :
    (putPair p).length ≤ 8 + pairSize p ∧ (p.1.length + p.2.length = 2 ^ 32 → (putPair p).length < 8 + pairSize p) := by
  have hput : (putPair p).length =
      8 + (if (p.1.length + p.2.length) % 2 ^ 32 ≠ 0 then p.1 ++ p.2 else []).length := by
    rw [putPair, putEnt, length_append, length_append, length_lePut, length_lePut]
  rw [hput, pairSize]
  constructor
  · split
    · rw [length_append]
    · rw [List.length_nil]
      omega
  · intro hsum
    rw [hsum, if_neg (by simp), List.length_nil]
    omega

theorem flatMap_size : ∀ l : List Pair, (l.flatMap putPair).length ≤ pairsSize l ∧
    ((∃ p ∈ l, p.1.length + p.2.length = 2 ^ 32) → (l.flatMap putPair).length < pairsSize l)
  | [] => ⟨Nat.le_refl _, fun ⟨p, hp, _⟩ => by cases hp⟩
  | p :: l => by
    obtain ⟨hle, hlt⟩ := putPair_length p
    obtain ⟨hle', hlt'⟩ := flatMap_size l
    have hcons : pairsSize (p :: l) = 8 + pairSize p + pairsSize l := rfl
    rw [List.flatMap_cons, length_append, hcons]
    refine ⟨by omega, ?_⟩
    rintro ⟨q, hq, hsum⟩
    rcases mem_cons.1 hq with rfl | hq
    · have := hlt hsum
      omega
    · have := hlt' ⟨q, hq, hsum⟩
      omega

theorem filesSize_hold {files : Nat → Option Bytes} {ids : List Nat} {ls : List (List Pair)}
    (h : FilesHold files ids ls) : filesSize files ids = (ls.flatten.flatMap putPair).length := by
  induction h with
  | nil => rfl
  | @cons id l ids ls h hs ih =>
    have hcons : filesSize files (id :: ids) = fileSize files id + filesSize files ids := rfl
    rw [hcons, ih, fileSize, h, Option.getD_some, List.flatten_cons, List.flatMap_append, length_append]

/-- **A pair whose lengths wrap does not come back** once a run has been written. -/
theorem finish_short (h : Adding s full cur) (hne : full ≠ []) (hcur : cur ≠ [])
    (hsum : ∃ p ∈ full.flatten ++ cur, p.1.length + p.2.length = 2 ^ 32) {out : List Pair} (hs' : finish s = .ok s')
    (hout : Yields s' out) : ¬IsStableSort Prod.fst (full.flatten ++ cur) out := by
  intro hsort
  rcases finish_spilled h hne hcur with ⟨hlt, s₁, h₁, hfinish⟩ | ⟨-, herr⟩
  · rw [hfinish] at hs'
    split at hs'
    · cases hs'
    rename_i s₂ hs₂
    split at hs'
    · cases hs'
    rename_i m hopen
    have hmany : (full ++ [cur]).length ≤ 2 ^ 31 := by
      rw [length_append, length_singleton]
      omega
    obtain ⟨ls, hfiles, hsorts⟩ := h₁.files
    have hids : s₁.ids ≠ [] := by
      rw [← length_pos_iff, h₁.length, length_append, length_singleton]
      omega
    obtain ⟨hids₂, hpasses⟩ := mergePasses_size rfl (h₁.room hmany) hids hs₂
    obtain ⟨hsound, hload⟩ := openRuns_load hopen
    have hall : (full ++ [cur]).flatten = full.flatten ++ cur := by rw [List.flatten_append, List.flatten_singleton]
    have hsame : SameByKey Prod.fst ls.flatten (full.flatten ++ cur) := by
      rw [← hall]
      exact same_flatten hsorts
    cases hs'
    have hyield := yields_size
      (s := { s₂ with finished := true, ents := [], merge := m, nextAt := 0 }) rfl hids₂ hsound hout
    have hleft : GsXsort.left { s₂ with finished := true, ents := [], merge := m, nextAt := 0 } = m.load := if_pos rfl
    rw [hleft] at hyield
    -- the files are shorter than what was given
    have hshort := (flatMap_size ls.flatten).2
      (hsum.imp (fun p hp => ⟨hsame.mem.2 hp.1, hp.2⟩))
    rw [← filesSize_hold hfiles, pairsSize_perm (perm_of_sameByKey hsame),
      ← pairsSize_perm (perm_of_sameByKey hsort.same)] at hshort
    omega
  · rw [herr] at hs'
    cases hs'

theorem sortable_of_sorts (hfits : ∀ p ∈ pairs, Fits p) (h : Sorts budget pairs) : Sortable budget pairs := by
  obtain ⟨s, s', out, hs, hs', hout, hsort⟩ := h
  let b := batches (opened budget).budget pairs
  have hflat : b.1.flatten ++ b.2 = pairs := flatten_batches _ pairs
  by_cases hne : b.1 = []
  · exact Or.inl hne
  have hcur : b.2 ≠ [] := batches_held hne
  rcases Nat.lt_or_ge (2 ^ 31) b.1.length with hlt | hle
  · have hbad : addAll (opened budget) pairs = .error .enomem :=
      addAll_error (opened_adding budget) hfits (Nat.zero_le _) hlt
    rw [hbad] at hs
    cases hs
  obtain ⟨s₁, hs₁, hadding⟩ : ∃ s, addAll (opened budget) pairs = .ok s ∧ Adding s b.1 b.2 :=
    addAll_ok (opened_adding budget) hfits hle
  rw [hs] at hs₁
  cases hs₁
  refine Or.inr ⟨?_, fun p hp hsum => ?_⟩
  · rcases finish_spilled hadding hne hcur with ⟨hlen, -⟩ | ⟨-, herr⟩
    · exact hlen
    · rw [herr] at hs'
      cases hs'
  · rw [← hflat] at hp hsort
    exact finish_short hadding hne hcur ⟨p, hp, hsum⟩ hs' hout hsort

theorem sorts_of_sortable (hfits : ∀ p ∈ pairs, Fits p) (h : Sortable budget pairs) : Sorts budget pairs := by
  let b := batches (opened budget).budget pairs
  have hflat : b.1.flatten ++ b.2 = pairs := flatten_batches _ pairs
  have hle : b.1.length ≤ 2 ^ 31 := by
    rcases h with hnil | ⟨hlen, -⟩
    · have hnil' : b.1 = [] := hnil
      rw [hnil']
      exact Nat.zero_le _
    · exact hlen.le
  obtain ⟨s, hs, hadding⟩ : ∃ s, addAll (opened budget) pairs = .ok s ∧ Adding s b.1 b.2 :=
    addAll_ok (opened_adding budget) hfits hle
  by_cases hne : b.1 = []
  · rw [hne, List.flatten_nil, List.nil_append] at hflat
    rw [hne, hflat] at hadding
    obtain ⟨s', out, hs', hout, hsort⟩ := finish_held hadding
    exact ⟨s, s', out, hs, hs', hout, hsort⟩
  · obtain ⟨hlen, hsum⟩ := h.resolve_left hne
    obtain ⟨s', out, hs', hout, hsort⟩ := finish_merged hadding hne (batches_held hne) hlen
      (fun p hp => whole_of (hfits p (hflat ▸ hp)) (hsum p (hflat ▸ hp)))
    rw [hflat] at hsort
    exact ⟨s, s', out, hs, hs', hout, hsort⟩

theorem fits_of_add (h : add s p.1 p.2 = .ok s') : Fits p := by
  rw [add] at h
  split at h
  · cases h
  rename_i hnot
  rw [not_or, not_or] at hnot
  exact ⟨Nat.le_of_not_lt hnot.2.1, Nat.le_of_not_lt hnot.2.2⟩

theorem fits_of_addAll : ∀ {pairs : List Pair} {s s' : GsXsort}, addAll s pairs = .ok s' → ∀ p ∈ pairs, Fits p
  | [], _, _, _, p, hp => by cases hp
  | q :: pairs, s, s', h, p, hp => by
    rw [addAll] at h
    split at h
    · cases h
    rename_i s₁ hs₁
    rcases mem_cons.1 hp with rfl | hp
    · exact fits_of_add hs₁
    · exact fits_of_addAll h p hp

/-- **What was taken and finished is handed out**, where no pair's lengths wrap. -/
theorem yields_of_finish (hsum : ∀ p ∈ pairs, p.1.length + p.2.length ≠ 2 ^ 32)
    (hs : addAll (opened budget) pairs = .ok s) (hs' : finish s = .ok s') :
    ∃ out, Yields s' out ∧ IsStableSort Prod.fst pairs out := by
  have hfits := fits_of_addAll hs
  have hsortable : Sortable budget pairs := by
    by_cases hne : (batches (opened budget).budget pairs).1 = []
    · exact Or.inl hne
    refine Or.inr ⟨?_, hsum⟩
    rcases Nat.lt_or_ge (2 ^ 31) (batches (opened budget).budget pairs).1.length with hlt | hle
    · have hbad : addAll (opened budget) pairs = .error .enomem :=
        addAll_error (opened_adding budget) hfits (Nat.zero_le _) hlt
      rw [hbad] at hs
      cases hs
    · obtain ⟨s₁, hs₁, hadding⟩ := addAll_ok (opened_adding budget) hfits hle
      rw [hs] at hs₁
      cases hs₁
      rcases finish_spilled hadding hne (batches_held hne) with ⟨hlen, -⟩ | ⟨-, herr⟩
      · exact hlen
      · rw [herr] at hs'
        cases hs'
  obtain ⟨s₁, s₂, out, hs₁, hs₂, hout, hsort⟩ := sorts_of_sortable hfits hsortable
  rw [hs] at hs₁
  cases hs₁
  rw [hs'] at hs₂
  cases hs₂
  exact ⟨out, hout, hsort⟩

/-- **The sorter is a stable sort** exactly where everything is held, or every pair is written whole and there are
numbers for the runs. -/
theorem sorts_iff_sortable (budget : Nat) (pairs : List Pair) (hfits : ∀ p ∈ pairs, Fits p) :
    Sorts budget pairs ↔ Sortable budget pairs :=
  ⟨sortable_of_sorts hfits, sorts_of_sortable hfits⟩

/-- Three keys twice each, one the other's prefix, for a budget that holds two pairs. -/
def sixPairs : List Pair := [([2], [1]), ([1, 5], [2]), ([1], [3]), ([2], [4]), ([1], [5]), ([1, 5], [6])]

/-- Two batches are spilled, and the six pairs come back as merged with the third. -/
theorem sorts_iff_sortable_six : (∀ p ∈ sixPairs, Fits p) ∧
    batches (opened 50).budget sixPairs = ([[([2], [1]), ([1, 5], [2])], [([1], [3]), ([2], [4])]],
      [([1], [5]), ([1, 5], [6])]) ∧
    (Sorts 50 sixPairs ↔ Sortable 50 sixPairs) ∧ Sorts 50 sixPairs ∧
    IsStableSort Prod.fst sixPairs [([1], [3]), ([1], [5]), ([1, 5], [2]), ([1, 5], [6]), ([2], [1]), ([2], [4])] := by
  have hfits : ∀ p ∈ sixPairs, Fits p := by decide
  have hsorts := sorts_iff_sortable 50 sixPairs hfits
  refine ⟨hfits, by decide, hsorts, hsorts.2 (.inr ⟨by decide, by decide⟩), ⟨by unfold Ascends; decide, fun k => ?_⟩⟩
  by_cases h : k ∈ sixPairs.map Prod.fst
  · revert k
    decide
  · have hnone : ∀ p : Pair, p.1 ∈ sixPairs.map Prod.fst → p.1 ≠ k := fun p hp he => h (he ▸ hp)
    refine (List.filter_eq_nil_iff.2 ?_).trans (List.filter_eq_nil_iff.2 ?_).symm <;> intro p hp
    · simpa using hnone p (by revert p; decide)
    · simpa using hnone p (List.mem_map_of_mem hp)

theorem batches_two (p q : Pair) (h : budget < entSize) : batches budget [p, q] = ([[p]], [q]) := by
  have hfirst : ¬Passes budget [] p := fun hp => hp.1 rfl
  have hsecond : Passes budget [p] q := by
    refine ⟨List.cons_ne_nil p [], ?_⟩
    rw [length_singleton]
    omega
  have hplace : place budget ([], []) p = ([], [p]) := if_neg hfirst
  rw [batches, List.foldl_cons, List.foldl_cons, List.foldl_nil, hplace]
  exact if_pos hsecond

theorem pair_lost {q : Pair} (hp : Fits p) (hq : Fits q) (hsum : p.1.length + p.2.length = 2 ^ 32) :
    (∃ s, addAll (opened 1) [p, q] = .ok s) ∧ ¬Sorts 1 [p, q] := by
  have hfits : ∀ r ∈ [p, q], Fits r := by
    intro r hr
    rw [mem_cons, List.mem_singleton] at hr
    rcases hr with rfl | rfl
    · exact hp
    · exact hq
  have hbatches : batches (opened 1).budget [p, q] = ([[p]], [q]) := batches_two p q (by decide)
  constructor
  · obtain ⟨s, hs, -⟩ := addAll_ok (opened_adding 1) hfits (by
      rw [← batches, hbatches, length_singleton]
      omega)
    exact ⟨s, hs⟩
  · intro hsorts
    rcases sortable_of_sorts hfits hsorts with hnil | ⟨-, hall⟩
    · rw [hbatches] at hnil
      cases hnil
    · exact hall p (List.mem_cons_self ..) hsum

/-- A key and a value of `2 ^ 31` bytes each. -/
def halves : Pair := (List.replicate (2 ^ 31) 0, List.replicate (2 ^ 31) 0)

theorem halves_key : halves.1.length = 2 ^ 31 := List.length_replicate

theorem halves_value : halves.2.length = 2 ^ 31 := List.length_replicate

theorem halves_fit : Fits halves := by
  rw [Fits, halves_key, halves_value, UINT32_MAX]
  omega

/-- **They are taken, and do not come back** once another pair has made them a run. -/
theorem halves_lost : (∃ s, addAll (opened 1) [halves, ([], [])] = .ok s) ∧ ¬Sorts 1 [halves, ([], [])] := by
  refine pair_lost halves_fit ⟨Nat.zero_le _, Nat.zero_le _⟩ ?_
  rw [halves_key, halves_value]
  omega

end Xsort
end Gbasic
