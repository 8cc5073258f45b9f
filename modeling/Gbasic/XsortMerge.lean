import Mathlib.Order.CountableDenseLinearOrder
import Gbasic.StableSort
import Gbasic.Xsort
/-!
# XsortMerge — runs that are read whole merge stably

A run's file is its entries one after another (`putPair`), and a run that is read stands at the first of those left
(`RunAt`).  A merge whose heap holds the places of the runs with something left, in order (`MergeAt`), hands out the
least current entry, of level ones the earliest run's, and so all of them as the runs' stable sort.
-/
namespace Gbasic
namespace Xsort

open StableSort (Least Merged)
open List (append_nil append_assoc mem_cons_self Forall₂ tail_cons nodup_cons)

variable {r : Run} {runs : List Run} {top a b i : Nat} {m : Merge}

abbrev Pair := Bytes × Bytes

variable {ps : List Pair} {p : Pair} {ls : List (List Pair)}

def putPair (p : Pair) : Bytes := putEnt p.1.length p.2.length (p.1 ++ p.2)

/-- A pair that is written whole: lengths of thirty-two bits whose sum, in thirty-two bits, is not zero by wrapping. -/
structure Whole (p : Pair) : Prop where
  key : p.1.length < 2 ^ 32
  value : p.2.length < 2 ^ 32
  sum : p.1.length + p.2.length ≠ 2 ^ 32

theorem putPair_whole (h : Whole p) : putPair p = lePut 4 p.1.length ++ (lePut 4 p.2.length ++ (p.1 ++ p.2)) := by
  have hk := h.key
  have hv := h.value
  have hs := h.sum
  unfold putPair putEnt
  by_cases hz : (p.1.length + p.2.length) % 2 ^ 32 = 0
  · have hnil : p.1 ++ p.2 = [] := List.length_eq_zero_iff.1 (by rw [List.length_append]; omega)
    rw [if_neg (not_not.2 hz), hnil, append_nil, append_nil]
  · rw [if_pos hz, append_assoc]

/-! ## One run -/

def RunAt (r : Run) : List Pair → Prop
  | [] => r.live = false
  | p :: ps => r.live = true ∧ (r.kn = p.1.length ∧ r.vn = p.2.length ∧ r.buf = p.1 ++ p.2) ∧
      r.rest = ps.flatMap putPair

theorem runStep_at (hps : ∀ p ∈ ps, Whole p) (h : r.rest = ps.flatMap putPair) :
    ∃ r', runStep r = .ok r' ∧ RunAt r' ps := by
  cases ps with
  | nil =>
    refine ⟨{ r with rest := [], live := false }, ?_, rfl⟩
    rw [runStep, h]
    rfl
  | cons p ps =>
    have hp := hps p (mem_cons_self ..)
    rw [List.flatMap_cons, putPair_whole hp] at h
    simp only [append_assoc] at h
    refine ⟨⟨ps.flatMap putPair, p.1 ++ p.2, p.1.length, p.2.length, true⟩, ?_, rfl, ⟨rfl, rfl, rfl⟩, rfl⟩
    have hlen : (p.1 ++ p.2).length = p.1.length + p.2.length := List.length_append
    rw [runStep, h, leGet_lePut 4 _ _ hp.key]
    dsimp only
    rw [leGet_lePut 4 _ _ hp.value]
    dsimp only
    rw [← append_assoc, ← hlen, if_neg (by rw [List.length_append]; omega), List.drop_left, List.take_left]

theorem RunAt.key (h : RunAt r (p :: ps)) : r.key = p.1 := by
  obtain ⟨-, ⟨hkn, -, hbuf⟩, -⟩ := h
  rw [Run.key, hkn, hbuf, List.take_left]

theorem RunAt.value (h : RunAt r (p :: ps)) : r.value = p.2 := by
  obtain ⟨-, ⟨hkn, hvn, hbuf⟩, -⟩ := h
  rw [Run.value, hkn, hvn, hbuf, List.drop_left, List.take_length]

theorem RunAt.put (h : RunAt r (p :: ps)) : putEnt r.kn r.vn r.buf = putPair p := by
  obtain ⟨-, ⟨hkn, hvn, hbuf⟩, -⟩ := h
  rw [hkn, hvn, hbuf]
  rfl

theorem RunAt.live_iff (h : RunAt r ps) : r.live = true ↔ ps ≠ [] := by
  cases ps with
  | nil => rw [show r.live = false from h]; simp
  | cons p ps => simp [h.1]

/-! ## The order of the runs -/

theorem keyCmp_eq (k l : Bytes) (tie : Ordering) : keyCmp k l tie = (memcmp k l).then tie := by
  have htake : ∀ k l : Bytes, (memcmp (k.take (min k.length l.length)) (l.take (min k.length l.length))).then
      (if k.length ≠ l.length then (if k.length < l.length then .lt else .gt) else tie) = (memcmp k l).then tie := by
    intro k
    induction k with
    | nil =>
      intro l
      cases l with
      | nil => rfl
      | cons b l => rfl
    | cons a k ih =>
      intro l
      cases l with
      | nil => rfl
      | cons b l =>
        have hmin : min (a :: k).length (b :: l).length = min k.length l.length + 1 := by
          simp only [List.length_cons]
          omega
        rw [hmin, List.take_succ_cons, List.take_succ_cons, memcmp_cons, memcmp_cons, Ordering.then_assoc,
          Ordering.then_assoc, ← ih l]
        simp only [List.length_cons, ne_eq, Nat.add_right_cancel_iff, Nat.add_lt_add_iff_right]
  rw [← htake k l, keyCmp]
  cases memcmp (k.take (min k.length l.length)) (l.take (min k.length l.length)) <;> rfl

theorem keyCmp_lt {k l : Bytes} {tie : Ordering} : keyCmp k l tie = .lt ↔ k < l ∨ k = l ∧ tie = .lt := by
  have hcmp := memcmp_compares k l
  rw [keyCmp_eq]
  cases ho : memcmp k l with
  | lt =>
    rw [ho] at hcmp
    exact iff_of_true rfl (Or.inl hcmp)
  | eq =>
    rw [ho] at hcmp
    have he : k = l := hcmp
    subst he
    simp
  | gt =>
    rw [ho] at hcmp
    have hgt : l < k := hcmp
    refine iff_of_false (by simp) ?_
    rintro (h | ⟨h, -⟩)
    · exact absurd h hgt.not_gt
    · exact absurd h hgt.ne'

theorem runLess_iff : runLess runs a b = true ↔ keyAt runs a < keyAt runs b ∨ keyAt runs a = keyAt runs b ∧ a < b := by
  rw [runLess, decide_eq_true_eq, keyCmp_lt]
  by_cases h : a < b
  · simp [h]
  · simp [h]

theorem runLess_eq_false :
    runLess runs a b = false ↔ keyAt runs b ≤ keyAt runs a ∧ (keyAt runs a = keyAt runs b → b ≤ a) := by
  rw [← Bool.not_eq_true, runLess_iff, not_or, not_lt, not_and, not_lt]

theorem runLess_weak (runs : List Run) : Sift.Weak (runLess runs) where
  asymm := by
    intro x y h
    rw [runLess_iff] at h
    rw [runLess_eq_false]
    rcases h with h | ⟨he, hlt⟩
    · exact ⟨h.le, fun he => absurd he h.ne'⟩
    · exact ⟨he.le, fun _ => hlt.le⟩
  trans := by
    intro x y z hyx hzy
    rw [runLess_eq_false] at hyx hzy ⊢
    refine ⟨hyx.1.trans hzy.1, fun he => ?_⟩
    have hxy : keyAt runs x = keyAt runs y := le_antisymm hyx.1 (hzy.1.trans he.le)
    exact (hyx.2 hxy.symm).trans (hzy.2 (he.trans hxy))

/-! ## A merge -/

structure MergeAt (m : Merge) (ls : List (List Pair)) : Prop where
  runs : Forall₂ RunAt m.runs ls
  nodup : m.heap.Nodup
  mem : ∀ i, i ∈ m.heap ↔ ∃ p ps, ls[i]? = some (p :: ps)
  ordered : Sift.Ordered (runLess m.runs) m.heap 0
  whole : ∀ l ∈ ls, ∀ p ∈ l, Whole p

theorem forall₂_get {α β : Type} {R : α → β → Prop} {l : List α} {m : List β} (h : Forall₂ R l m) {b : β}
    (hb : m[i]? = some b) : ∃ a, l[i]? = some a ∧ R a b := by
  obtain ⟨hi, rfl⟩ := List.getElem?_eq_some_iff.1 hb
  have hil : i < l.length := by
    rw [h.length_eq]
    exact hi
  exact ⟨l[i], List.getElem?_eq_getElem hil, h.get hil hi⟩

theorem forall₂_set {α β : Type} {R : α → β → Prop} : ∀ {l : List α} {m : List β} {i : Nat} {a : α} {b : β},
    Forall₂ R l m → R a b → Forall₂ R (l.set i a) (m.set i b)
  | [], [], _, _, _, _, _ => Forall₂.nil
  | _ :: _, _ :: _, 0, _, _, .cons _ ht, h => .cons h ht
  | _ :: _, _ :: _, _ + 1, _, _, .cons hh ht, h => .cons hh (forall₂_set ht h)

theorem keyAt_of (h : Forall₂ RunAt runs ls) (hi : ls[i]? = some (p :: ps)) : keyAt runs i = p.1 := by
  obtain ⟨r, hr, hat⟩ := forall₂_get h hi
  rw [keyAt, hr, Option.map_some, Option.getD_some, hat.key]

theorem keyAt_set (r : Run) (h : i ≠ top) : keyAt (runs.set top r) i = keyAt runs i := by
  rw [keyAt, keyAt, List.getElem?_set_ne h.symm]

theorem runLess_set (r : Run) (ha : a ≠ top) (hb : b ≠ top) : runLess (runs.set top r) a b = runLess runs a b := by
  rw [runLess, runLess, keyAt_set r ha, keyAt_set r hb]

theorem dropTop_perm : ∀ h : List Nat, (dropTop h).Perm h.tail
  | [] => List.Perm.refl []
  | [_] => List.Perm.refl []
  | _ :: a :: l => by
    rw [dropTop, tail_cons]
    refine (List.perm_append_singleton _ _).symm.trans ?_
    rw [List.dropLast_append_getLast]

theorem dropTop_get : ∀ {h : List Nat} {i x : Nat}, 0 < i → (dropTop h)[i]? = some x → h[i]? = some x
  | [], _, _, _, hx => by cases hx
  | [_], _, _, _, hx => by cases hx
  | _ :: a :: l, i + 1, x, _, hx => by
    rw [dropTop, List.getElem?_cons_succ] at hx
    rw [List.getElem?_cons_succ]
    have hi := (List.getElem?_eq_some_iff.1 hx).1
    rw [List.getElem?_dropLast, if_pos (by rw [List.length_dropLast] at hi; exact hi)] at hx
    exact hx

theorem ordered_after {l : List Nat} (h : MergeAt m ls) (hheap : m.heap = top :: l) (r : Run) (heap : List Nat)
    (hh : heap = m.heap ∨ heap = dropTop m.heap) : Sift.Ordered (runLess (m.runs.set top r)) heap 1 := by
  intro p c x y hp hc hx hy
  have hp0 : 0 < p := hp
  have hc0 : 0 < c := by
    rcases hc with h1 | h1 <;> omega
  have hold : ∀ {i z : Nat}, 0 < i → heap[i]? = some z → m.heap[i]? = some z := by
    intro i z hi hz
    rcases hh with rfl | rfl
    · exact hz
    · exact dropTop_get hi hz
  -- the top stands at the first place only
  have hnot : ∀ {i z : Nat}, 0 < i → m.heap[i]? = some z → z ≠ top := by
    intro i z hi hz hzt
    have hnd := h.nodup
    rw [hheap] at hnd hz
    obtain ⟨k, rfl⟩ : ∃ k, i = k + 1 := ⟨i - 1, by omega⟩
    rw [List.getElem?_cons_succ] at hz
    rw [hzt] at hz
    exact (nodup_cons.1 hnd).1 (List.mem_of_getElem? hz)
  have hx' := hold hp0 hx
  have hy' := hold hc0 hy
  rw [runLess_set r (hnot hc0 hy') (hnot hp0 hx')]
  exact h.ordered p c x y (Nat.zero_le p) hc hx' hy'

/-- **What a step of a merge does**: the least entry's run goes on to its next. -/
theorem advance_at {l : List Nat} (h : MergeAt m ls) (hheap : m.heap = top :: l) :
    ∃ p ps r m', m.runs[top]? = some r ∧ RunAt r (p :: ps) ∧ Least Prod.fst ls top p ps ∧ advance m = .ok m' ∧
      MergeAt m' (ls.set top ps) := by
  obtain ⟨p, ps, htop⟩ := (h.mem top).1 (by rw [hheap]; exact mem_cons_self ..)
  obtain ⟨r, hr, hat⟩ := forall₂_get h.runs htop
  have hmem : p :: ps ∈ ls := List.mem_of_getElem? htop
  have hps : ∀ q ∈ ps, Whole q := fun q hq => h.whole _ hmem q (List.mem_cons_of_mem p hq)
  obtain ⟨r', hstep, hat'⟩ := runStep_at hps hat.2.2
  have hrun : advance m = .ok ⟨m.runs.set top r',
      Sift.siftDown (runLess (m.runs.set top r')) (if r'.live then m.heap else dropTop m.heap) 0⟩ := by
    rw [advance, hheap]
    dsimp only
    rw [hr]
    dsimp only
    rw [hstep]
  refine ⟨p, ps, r, _, hr, hat, ⟨htop, ?_⟩, hrun, ?_⟩
  · -- the first of the heap is a least
    intro j a u hj
    have hjm := (h.mem j).2 ⟨a, u, hj⟩
    obtain ⟨i, hi⟩ := List.mem_iff_getElem?.1 hjm
    have hfirst : m.heap[0]? = some top := by rw [hheap]; rfl
    have hle := Sift.first_least (runLess_weak m.runs) h.ordered hfirst hi
    rw [runLess_eq_false, keyAt_of h.runs htop, keyAt_of h.runs hj] at hle
    exact hle
  · have hlive := hat'.live_iff
    have hsame : (Sift.siftDown (runLess (m.runs.set top r')) (if r'.live then m.heap else dropTop m.heap) 0).Perm
        (if r'.live then m.heap else dropTop m.heap) := Sift.perm_siftFrom _ _ _
    have hnd := h.nodup
    have hset : ∀ i, (ls.set top ps)[i]? = if i = top then some ps else ls[i]? := by
      intro i
      have hlt := (List.getElem?_eq_some_iff.1 htop).1
      by_cases hi : i = top
      · subst hi
        rw [List.getElem?_set_self hlt, if_pos rfl]
      · rw [List.getElem?_set_ne (Ne.symm hi), if_neg hi]
    refine ⟨forall₂_set h.runs hat', ?_, ?_, ?_, ?_⟩
    · refine hsame.nodup_iff.2 ?_
      split
      · exact hnd
      · refine (dropTop_perm m.heap).nodup_iff.2 ?_
        rw [hheap] at hnd ⊢
        exact (nodup_cons.1 hnd).2
    · intro i
      rw [hsame.mem_iff, hset]
      by_cases hi : i = top
      · subst hi
        rw [if_pos rfl]
        by_cases hl : r'.live = true
        · rw [if_pos hl, hheap]
          obtain ⟨q, qs, rfl⟩ := List.exists_cons_of_ne_nil (hlive.1 hl)
          exact iff_of_true (mem_cons_self ..) ⟨q, qs, rfl⟩
        · rw [if_neg hl, (dropTop_perm m.heap).mem_iff, hheap, tail_cons]
          have hnil : ps = [] := by
            by_contra hne
            exact hl (hlive.2 hne)
          rw [hheap] at hnd
          refine iff_of_false (nodup_cons.1 hnd).1 ?_
          rintro ⟨q, qs, hq⟩
          rw [hnil] at hq
          cases hq
      · rw [if_neg hi, ← h.mem i]
        by_cases hl : r'.live = true
        · rw [if_pos hl]
        · rw [if_neg hl, (dropTop_perm m.heap).mem_iff, hheap, tail_cons, List.mem_cons]
          exact ⟨Or.inr, fun hm => hm.resolve_left hi⟩
    · refine Sift.siftDown_ordered (runLess_weak _) (ordered_after h hheap r' _ ?_)
      split
      · exact Or.inl rfl
      · exact Or.inr rfl
    · intro l' hl'
      rcases List.mem_or_eq_of_mem_set hl' with hl' | rfl
      · exact h.whole l' hl'
      · exact hps

theorem MergeAt.top_none (h : MergeAt m ls) (hheap : m.heap = []) : ∀ l ∈ ls, l = [] := by
  intro l hl
  obtain ⟨i, hi⟩ := List.mem_iff_getElem?.1 hl
  cases l with
  | nil => rfl
  | cons p ps =>
    have := (h.mem i).2 ⟨p, ps, hi⟩
    rw [hheap] at this
    cases this

/-- **A merge written out** is its runs' stable merge. -/
theorem mergeAll_at : ∀ {n : Nat} {m : Merge} {ls : List (List Pair)}, m.size ≤ n → MergeAt m ls →
    ∃ out, Merged Prod.fst ls out ∧ ∀ acc, mergeAll m acc = .ok (acc ++ out.flatMap putPair) := by
  intro n
  induction n with
  | zero =>
    intro m ls hn h
    have hheap : m.heap = [] := by
      unfold Merge.size at hn
      exact List.length_eq_zero_iff.1 (by omega)
    refine ⟨[], .nil (h.top_none hheap), fun acc => ?_⟩
    rw [mergeAll, show m.top = none by rw [Merge.top, hheap]; rfl]
    dsimp only
    rw [if_pos hheap, List.flatMap_nil, append_nil]
  | succ n ih =>
    intro m ls hn h
    rcases hheap : m.heap with _ | ⟨top, l⟩
    · refine ⟨[], .nil (h.top_none hheap), fun acc => ?_⟩
      rw [mergeAll, show m.top = none by rw [Merge.top, hheap]; rfl]
      dsimp only
      rw [if_pos hheap, List.flatMap_nil, append_nil]
    · obtain ⟨p, ps, r, m', hr, hat, hleast, hrun, hm'⟩ := advance_at h hheap
      obtain ⟨out, hout, hall⟩ := ih (by have := advance_size hrun; omega) hm'
      refine ⟨p :: out, .cons hleast hout, fun acc => ?_⟩
      have htop : m.top = some r := by
        rw [Merge.top, hheap]
        exact hr
      rw [mergeAll, htop]
      dsimp only
      split
      · rename_i e he
        rw [hrun] at he
        cases he
      · rename_i m'' he
        rw [hrun] at he
        cases he
        rw [hall, hat.put, List.flatMap_cons, append_assoc]

/-! ## Runs opened -/

theorem liveFrom_mem : ∀ {rs : List Run} {k i : Nat}, i ∈ liveFrom k rs ↔ k ≤ i ∧ ∃ r, rs[i - k]? = some r ∧
    r.live = true
  | [], k, i => by
    rw [liveFrom]
    simp
  | r :: rs, k, i => by
    rw [liveFrom]
    have ih : i ∈ liveFrom (k + 1) rs ↔ k + 1 ≤ i ∧ ∃ r, rs[i - (k + 1)]? = some r ∧ r.live = true := liveFrom_mem
    have hhere : (k ≤ i ∧ ∃ r', (r :: rs)[i - k]? = some r' ∧ r'.live = true) ↔
        (i = k ∧ r.live = true) ∨ (k + 1 ≤ i ∧ ∃ r', rs[i - (k + 1)]? = some r' ∧ r'.live = true) := by
      rcases Nat.lt_trichotomy i k with hlt | heq | hgt
      · exact iff_of_false (by omega) (by omega)
      · subst heq
        rw [Nat.sub_self, List.getElem?_cons_zero]
        constructor
        · rintro ⟨-, r', hr', hl⟩
          cases hr'
          exact Or.inl ⟨rfl, hl⟩
        · rintro (⟨-, hl⟩ | ⟨hlt, -⟩)
          · exact ⟨Nat.le_refl i, r, rfl, hl⟩
          · omega
      · rw [show i - k = i - (k + 1) + 1 by omega, List.getElem?_cons_succ]
        constructor
        · rintro ⟨-, hr⟩
          exact Or.inr ⟨hgt, hr⟩
        · rintro (⟨he, -⟩ | ⟨-, hr⟩)
          · omega
          · exact ⟨hgt.le, hr⟩
    rw [hhere, ← ih]
    cases r.live with
    | true => simp
    | false => simp

theorem liveFrom_nodup : ∀ (rs : List Run) (k : Nat), (liveFrom k rs).Nodup
  | [], k => List.nodup_nil
  | r :: rs, k => by
    rw [liveFrom]
    split
    · refine nodup_cons.2 ⟨fun hm => ?_, liveFrom_nodup rs (k + 1)⟩
      have := (liveFrom_mem.1 hm).1
      omega
    · exact liveFrom_nodup rs (k + 1)

def FilesHold (files : Nat → Option Bytes) (ids : List Nat) (ls : List (List Pair)) : Prop :=
  Forall₂ (fun id l => files id = some (l.flatMap putPair)) ids ls

theorem openEach_at {files : Nat → Option Bytes} : ∀ {ids : List Nat} {ls : List (List Pair)}, FilesHold files ids ls →
    (∀ l ∈ ls, ∀ p ∈ l, Whole p) → ∃ runs, openEach files ids = .ok runs ∧ Forall₂ RunAt runs ls
  | [], [], _, _ => ⟨[], rfl, Forall₂.nil⟩
  | id :: ids, l :: ls, .cons hfile hrest, hw => by
    obtain ⟨r, hstep, hat⟩ := runStep_at (r := ⟨l.flatMap putPair, [], 0, 0, false⟩) (hw l (mem_cons_self ..)) rfl
    obtain ⟨runs, hopen, hruns⟩ := openEach_at hrest (fun l' hl' => hw l' (List.mem_cons_of_mem l hl'))
    refine ⟨r :: runs, ?_, .cons hat hruns⟩
    rw [openEach, hfile]
    dsimp only
    rw [hstep]
    dsimp only
    rw [hopen]

/-- **Runs opened** stand each at its first entry, in a heap. -/
theorem openRuns_at {files : Nat → Option Bytes} {ids : List Nat} (h : FilesHold files ids ls)
    (hw : ∀ l ∈ ls, ∀ p ∈ l, Whole p) : ∃ m, openRuns files ids = .ok m ∧ MergeAt m ls := by
  obtain ⟨runs, hopen, hruns⟩ := openEach_at h hw
  refine ⟨_, by rw [openRuns, hopen], hruns, ?_, ?_, Sift.heapify_ordered (runLess_weak runs) _, hw⟩
  · exact (Sift.perm_siftAll _ _).nodup_iff.2 (liveFrom_nodup runs 0)
  · intro i
    rw [Sift.heapify, (Sift.perm_siftAll _ _).mem_iff, liveFrom_mem, Nat.sub_zero]
    constructor
    · rintro ⟨-, r, hr, hlive⟩
      have hi : i < ls.length := by
        rw [← hruns.length_eq]
        exact (List.getElem?_eq_some_iff.1 hr).1
      have hl := List.getElem?_eq_getElem hi
      obtain ⟨r', hr', hat⟩ := forall₂_get hruns hl
      rw [hr] at hr'
      cases hr'
      obtain ⟨p, ps, hp⟩ := List.exists_cons_of_ne_nil (hat.live_iff.1 hlive)
      exact ⟨p, ps, by rw [hl, hp]⟩
    · rintro ⟨p, ps, hp⟩
      obtain ⟨r, hr, hat⟩ := forall₂_get hruns hp
      exact ⟨Nat.zero_le i, r, hr, hat.1⟩

end Xsort
end Gbasic
