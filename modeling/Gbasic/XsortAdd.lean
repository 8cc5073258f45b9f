import Gbasic.XsortRuns
/-!
# XsortAdd — what a sorter holds and what it has written

The pairs are cut into batches that the budget holds (`batches`), each written as a run, in order, once another pair
passes it (`Adding`).  A pair is refused for its length, or where there is no number for the next run.
-/
namespace Gbasic
namespace Xsort

open StableSort (Ascends IsStableSort SameByKey)

variable {s : GsXsort} {full : List (List Pair)} {cur : List Pair} {p : Pair}

def Ent.pair (e : Ent) : Pair := (e.key, e.value)

theorem entCmp_le {x y : Ent} : entCmp x y ≠ .gt ↔ x.key < y.key ∨ x.key = y.key ∧ x.seq ≤ y.seq := by
  have hcmp := memcmp_compares x.key y.key
  rw [entCmp, keyCmp_eq]
  cases ho : memcmp x.key y.key with
  | lt =>
    rw [ho] at hcmp
    exact iff_of_true (by simp) (Or.inl hcmp)
  | eq =>
    rw [ho] at hcmp
    have he : x.key = y.key := hcmp
    rw [he]
    simp [cmp_eq_gt_iff]
  | gt =>
    rw [ho] at hcmp
    have hgt : y.key < x.key := hcmp
    refine iff_of_false (by simp) ?_
    rintro (h | ⟨h, -⟩)
    · exact absurd h hgt.not_gt
    · exact absurd h hgt.ne'

/-- **The entries sorted** are the pairs' stable sort. -/
theorem sortArena_stable {ents : List Ent} (h : ents.Pairwise (fun a b => a.seq < b.seq)) :
    IsStableSort Prod.fst (ents.map Ent.pair) ((sortArena ents).map Ent.pair) := by
  have hperm : (sortArena ents).Perm ents := List.mergeSort_perm _ _
  have hle : (sortArena ents).Pairwise (fun x y => decide (entCmp x y ≠ .gt) = true) := by
    refine List.pairwise_mergeSort ?_ ?_ ents
    · intro a b c hab hbc
      rw [decide_eq_true_eq, entCmp_le] at hab hbc ⊢
      rcases hab with hab | ⟨hab, hs⟩
      · rcases hbc with hbc | ⟨hbc, -⟩
        · exact Or.inl (hab.trans hbc)
        · exact Or.inl (hbc ▸ hab)
      · rcases hbc with hbc | ⟨hbc, hs'⟩
        · exact Or.inl (hab ▸ hbc)
        · exact Or.inr ⟨hab.trans hbc, hs.trans hs'⟩
    · intro a b
      rw [Bool.or_eq_true, decide_eq_true_eq, decide_eq_true_eq, entCmp_le, entCmp_le]
      rcases lt_trichotomy a.key b.key with hk | hk | hk
      · exact Or.inl (Or.inl hk)
      · rcases Nat.le_total a.seq b.seq with hs | hs
        · exact Or.inl (Or.inr ⟨hk, hs⟩)
        · exact Or.inr (Or.inr ⟨hk.symm, hs⟩)
      · exact Or.inr (Or.inl hk)
  have hne : (sortArena ents).Pairwise (fun x y => x.seq ≠ y.seq) :=
    (h.imp (fun hlt => Nat.ne_of_lt hlt)).perm hperm.symm (fun h => h.symm)
  have htagged : IsStableSort Ent.key ents (sortArena ents) := by
    refine StableSort.isStableSort_of_tagged hperm h (List.Pairwise.imp ?_ (hle.and hne))
    rintro x y ⟨hxy, hseq⟩
    rw [decide_eq_true_eq, entCmp_le] at hxy
    rcases hxy with hxy | ⟨hk, hs⟩
    · exact Or.inl hxy
    · exact Or.inr ⟨hk, by omega⟩
  refine ⟨?_, fun k => ?_⟩
  · rw [Ascends, List.pairwise_map]
    exact htagged.ascends
  · have hs := htagged.same k
    rw [List.filter_map, List.filter_map]
    exact congrArg (List.map Ent.pair) hs

def pairSize (p : Pair) : Nat := p.1.length + p.2.length

def heldSize (cur : List Pair) : Nat := (cur.map pairSize).sum

def Passes (budget : Nat) (cur : List Pair) (p : Pair) : Prop :=
  cur ≠ [] ∧ budget < heldSize cur + pairSize p + cur.length * entSize

instance (budget : Nat) (cur : List Pair) (p : Pair) : Decidable (Passes budget cur p) :=
  inferInstanceAs (Decidable (_ ∧ _))

/-- The batches that are full and the one that is not, with one more pair. -/
def place (budget : Nat) (b : List (List Pair) × List Pair) (p : Pair) : List (List Pair) × List Pair :=
  if Passes budget b.2 p then (b.1 ++ [b.2], [p]) else (b.1, b.2 ++ [p])

/-- Pairs cut into batches that the budget holds. -/
def batches (budget : Nat) (pairs : List Pair) : List (List Pair) × List Pair := pairs.foldl (place budget) ([], [])

/-- A pair whose lengths are of thirty-two bits. -/
def Fits (p : Pair) : Prop := p.1.length ≤ UINT32_MAX ∧ p.2.length ≤ UINT32_MAX

instance (p : Pair) : Decidable (Fits p) := inferInstanceAs (Decidable (_ ∧ _))

structure Adding (s : GsXsort) (full : List (List Pair)) (cur : List Pair) : Prop where
  finished : s.finished = false
  nextAt : s.nextAt = 0
  ents : s.ents.map Ent.pair = cur
  seqs : s.ents.Pairwise (fun a b => a.seq < b.seq)
  seq : ∀ e ∈ s.ents, e.seq < s.seq
  used : s.used = heldSize cur
  files : ∃ ls, FilesHold s.files s.ids ls ∧ List.Forall₂ (IsStableSort Prod.fst) full ls
  ids : s.ids = List.range s.nextid
  cap : CapOk s.ids.length s.capids

theorem Adding.length (h : Adding s full cur) : s.ids.length = full.length := by
  obtain ⟨ls, hfiles, hsorts⟩ := h.files
  rw [hfiles.length_eq, hsorts.length_eq]

theorem Adding.nextid (h : Adding s full cur) : s.nextid = full.length := by
  rw [← h.length, h.ids, List.length_range]

theorem ents_put (ents : List Ent) : ents.flatMap Ent.put = (ents.map Ent.pair).flatMap putPair := by
  rw [List.flatMap_map]
  rfl

/-- **A batch written**: there is a number for it exactly where fewer than `2 ^ 31` are out. -/
theorem spill_cases (h : Adding s full cur) :
    (full.length < 2 ^ 31 ∧ ∃ s', spill s = .ok s' ∧ s'.budget = s.budget ∧ Adding s' (full ++ [cur]) []) ∨
    (full.length = 2 ^ 31 ∧ spill s = .error .enomem) := by
  rcases runNew_cases h.cap with ⟨hlt, cap, hcap, hnew⟩ | ⟨hfull, hnew⟩
  · rw [h.length] at hlt
    have hnext : (s.nextid + 1) % 2 ^ 32 = s.nextid + 1 := by
      rw [h.nextid]
      omega
    rw [hnext] at hnew
    obtain ⟨ls, hfiles, hsorts⟩ := h.files
    have hspill : spill s = .ok { s with
        capids := cap
        nextid := s.nextid + 1
        ids := s.ids ++ [s.nextid]
        files := setFile s.files s.nextid (some ((sortArena s.ents).flatMap Ent.put))
        written := s.written + 1
        used := 0
        ents := [] } := by rw [spill, hnew]
    refine Or.inl ⟨hlt, _, hspill, rfl, h.finished, h.nextAt, rfl, List.Pairwise.nil, ?_, rfl,
      ⟨ls ++ [(sortArena s.ents).map Ent.pair], ?_, ?_⟩, ?_, ?_⟩
    · intro e he
      cases he
    · refine FilesHold.snoc (hfiles.congr (fun i hi => ?_)) ?_
      · rw [h.ids, List.mem_range] at hi
        exact if_neg (Nat.ne_of_lt hi)
      · dsimp only
        rw [setFile, if_pos rfl, ents_put]
    · refine List.rel_append hsorts (.cons ?_ .nil)
      rw [← h.ents]
      exact sortArena_stable h.seqs
    · dsimp only
      rw [List.range_succ, h.ids]
    · dsimp only
      rw [List.length_append]
      exact hcap
  · rw [h.length] at hfull
    exact Or.inr ⟨hfull, by rw [spill, hnew]⟩

/-! ## Adding -/

def GsXsort.push (s : GsXsort) (p : Pair) : GsXsort :=
  { s with ents := s.ents ++ [⟨p.1, p.2, s.seq⟩], seq := s.seq + 1, used := s.used + (p.1.length + p.2.length) }

theorem heldSize_append (l m : List Pair) : heldSize (l ++ m) = heldSize l + heldSize m := by
  rw [heldSize, List.map_append, List.sum_append]
  rfl

theorem Adding.push (h : Adding s full cur) (p : Pair) : Adding (s.push p) full (cur ++ [p]) where
  finished := h.finished
  nextAt := h.nextAt
  ents := by
    rw [GsXsort.push]
    dsimp only
    rw [List.map_append, h.ents]
    rfl
  seqs := by
    refine List.pairwise_append.2 ⟨h.seqs, List.pairwise_singleton _ _, fun a ha b hb => ?_⟩
    rw [List.mem_singleton.1 hb]
    exact h.seq a ha
  seq := by
    intro e he
    rcases List.mem_append.1 he with he | he
    · exact (h.seq e he).trans (Nat.lt_succ_self _)
    · rw [List.mem_singleton.1 he]
      exact Nat.lt_succ_self _
  used := by
    rw [heldSize_append, ← h.used]
    rfl
  files := h.files
  ids := h.ids
  cap := h.cap

theorem Adding.passes_iff (h : Adding s full cur) (p : Pair) :
    (s.ents ≠ [] ∧ s.budget < s.used + (p.1.length + p.2.length) + s.ents.length * entSize) ↔
    Passes s.budget cur p := by
  have hlen : s.ents.length = cur.length := by rw [← h.ents, List.length_map]
  have hnil : s.ents = [] ↔ cur = [] := by rw [← h.ents, List.map_eq_nil_iff]
  rw [Passes, h.used, hlen, ne_eq, hnil]
  rfl

theorem not_refused (h : Adding s full cur) (hp : Fits p) :
    ¬(s.finished = true ∨ UINT32_MAX < p.1.length ∨ UINT32_MAX < p.2.length) := by
  have hk := hp.1
  have hv := hp.2
  rw [h.finished]
  rintro (hf | hf | hf)
  · cases hf
  · omega
  · omega

/-- **A pair added** goes with those held, or begins a batch. -/
theorem add_ok (h : Adding s full cur) (hp : Fits p) (hroom : Passes s.budget cur p → full.length < 2 ^ 31) :
    ∃ s', add s p.1 p.2 = .ok s' ∧ s'.budget = s.budget ∧
      Adding s' (place s.budget (full, cur) p).1 (place s.budget (full, cur) p).2 := by
  have hpasses := h.passes_iff p
  rw [add, if_neg (not_refused h hp), place]
  dsimp only
  by_cases hpass : Passes s.budget cur p
  · rw [if_pos (hpasses.2 hpass), if_pos hpass]
    rcases spill_cases h with ⟨-, s₁, hs₁, hbudget, h₁⟩ | ⟨hfull, -⟩
    · rw [hs₁]
      exact ⟨s₁.push p, rfl, hbudget, h₁.push p⟩
    · have := hroom hpass
      omega
  · rw [if_neg (fun hn => hpass (hpasses.1 hn)), if_neg hpass]
    exact ⟨s.push p, rfl, rfl, h.push p⟩

theorem add_error (h : Adding s full cur) (hp : Fits p) (hpass : Passes s.budget cur p) (hfull : 2 ^ 31 ≤ full.length) :
    add s p.1 p.2 = .error .enomem := by
  rw [add, if_neg (not_refused h hp)]
  dsimp only
  rw [if_pos ((h.passes_iff p).2 hpass)]
  rcases spill_cases h with ⟨hlt, -⟩ | ⟨-, herr⟩
  · omega
  · rw [herr]

theorem length_place (budget : Nat) (b : List (List Pair) × List Pair) (p : Pair) :
    b.1.length ≤ (place budget b p).1.length := by
  rw [place]
  split
  · rw [List.length_append]
    omega
  · exact Nat.le_refl _

theorem length_foldl_place (budget : Nat) : ∀ (pairs : List Pair) (b : List (List Pair) × List Pair),
    b.1.length ≤ (pairs.foldl (place budget) b).1.length
  | [], _ => Nat.le_refl _
  | p :: pairs, b => (length_place budget b p).trans (length_foldl_place budget pairs _)

/-- **Pairs added** stand in their batches. -/
theorem addAll_ok : ∀ {pairs : List Pair} {s : GsXsort} {b : List (List Pair) × List Pair}, Adding s b.1 b.2 →
    (∀ p ∈ pairs, Fits p) → (pairs.foldl (place s.budget) b).1.length ≤ 2 ^ 31 →
    ∃ s', addAll s pairs = .ok s' ∧
      Adding s' (pairs.foldl (place s.budget) b).1 (pairs.foldl (place s.budget) b).2 := by
  intro pairs
  induction pairs with
  | nil =>
    intro s b h _ _
    exact ⟨s, rfl, h⟩
  | cons p pairs ih =>
    intro s b h hfits hlen
    rw [List.foldl_cons] at hlen ⊢
    have hroom : Passes s.budget b.2 p → b.1.length < 2 ^ 31 := by
      intro hpass
      have hle := length_foldl_place s.budget pairs (place s.budget b p)
      have hplace : (place s.budget b p).1.length = b.1.length + 1 := by
        rw [place, if_pos hpass, List.length_append]
        rfl
      omega
    obtain ⟨s₁, hs₁, hbudget, h₁⟩ := add_ok h (hfits p (List.mem_cons_self ..)) hroom
    rw [← hbudget] at hlen ⊢
    obtain ⟨s', hs', h'⟩ := ih (b := place s₁.budget b p) (by rw [hbudget]; exact h₁)
      (fun q hq => hfits q (List.mem_cons_of_mem p hq)) hlen
    refine ⟨s', ?_, h'⟩
    rw [addAll, hs₁]
    exact hs'

/-- Past `2 ^ 31` full batches a pair is refused. -/
theorem addAll_error : ∀ {pairs : List Pair} {s : GsXsort} {b : List (List Pair) × List Pair}, Adding s b.1 b.2 →
    (∀ p ∈ pairs, Fits p) → b.1.length ≤ 2 ^ 31 → 2 ^ 31 < (pairs.foldl (place s.budget) b).1.length →
    addAll s pairs = .error .enomem := by
  intro pairs
  induction pairs with
  | nil =>
    intro s b _ _ hle hlt
    rw [List.foldl_nil] at hlt
    omega
  | cons p pairs ih =>
    intro s b h hfits hle hlt
    rw [List.foldl_cons] at hlt
    have hp := hfits p (List.mem_cons_self ..)
    by_cases hfull : Passes s.budget b.2 p ∧ 2 ^ 31 ≤ b.1.length
    · rw [addAll, add_error h hp hfull.1 hfull.2]
    · have hroom : Passes s.budget b.2 p → b.1.length < 2 ^ 31 := fun hpass => by
        by_contra hge
        exact hfull ⟨hpass, by omega⟩
      obtain ⟨s₁, hs₁, hbudget, h₁⟩ := add_ok h hp hroom
      have hplace : (place s.budget b p).1.length ≤ 2 ^ 31 := by
        rw [place]
        split
        · rename_i hpass
          have := hroom hpass
          rw [List.length_append, List.length_singleton]
          omega
        · exact hle
      rw [← hbudget] at hlt hplace
      rw [addAll, hs₁]
      exact ih (b := place s₁.budget b p) (by rw [hbudget]; exact h₁)
        (fun q hq => hfits q (List.mem_cons_of_mem p hq)) hplace hlt

/-! ## Batches -/

theorem flatten_place (budget : Nat) (b : List (List Pair) × List Pair) (p : Pair) :
    (place budget b p).1.flatten ++ (place budget b p).2 = b.1.flatten ++ b.2 ++ [p] := by
  rw [place]
  split
  · rw [List.flatten_append, List.flatten_singleton]
  · rw [List.append_assoc]

theorem flatten_foldl_place (budget : Nat) : ∀ (pairs : List Pair) (b : List (List Pair) × List Pair),
    (pairs.foldl (place budget) b).1.flatten ++ (pairs.foldl (place budget) b).2 = b.1.flatten ++ b.2 ++ pairs
  | [], b => (List.append_nil _).symm
  | p :: pairs, b => by
    rw [List.foldl_cons, flatten_foldl_place budget pairs, flatten_place, List.append_assoc, List.singleton_append]

theorem flatten_batches (budget : Nat) (pairs : List Pair) :
    (batches budget pairs).1.flatten ++ (batches budget pairs).2 = pairs := by
  rw [batches, flatten_foldl_place, List.flatten_nil, List.nil_append, List.nil_append]

theorem place_ne_nil (budget : Nat) (b : List (List Pair) × List Pair) (p : Pair) : (place budget b p).2 ≠ [] := by
  rw [place]
  split
  · exact List.cons_ne_nil p []
  · exact List.append_ne_nil_of_right_ne_nil _ (List.cons_ne_nil p [])

theorem foldl_place_nil (budget : Nat) : ∀ (pairs : List Pair) (b : List (List Pair) × List Pair),
    (pairs.foldl (place budget) b).2 = [] → pairs = []
  | [], _, _ => rfl
  | [p], b, h => absurd h (place_ne_nil budget b p)
  | p :: q :: pairs, b, h => by
    have := foldl_place_nil budget (q :: pairs) (place budget b p) h
    cases this

theorem batches_held {budget : Nat} {pairs : List Pair} (h : (batches budget pairs).1 ≠ []) :
    (batches budget pairs).2 ≠ [] := by
  intro hnil
  have hp := foldl_place_nil budget pairs _ hnil
  subst hp
  exact h rfl

end Xsort
end Gbasic
