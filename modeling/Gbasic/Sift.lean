import Mathlib.Data.List.Sort
/-!
# Sift — a binary heap kept by sifting down (library)

A list whose places have two children each, `2 p + 1` and `2 p + 2`.  `siftDown` takes an entry down past lesser
children, and `heapify` sifts every place that has children, the last first.  From a place on, either leaves no child
less than its parent, so a heap's first entry is a least one.  Nothing here names a repository.
-/
namespace Gbasic
namespace Sift

variable {α : Type}

def Child (c p : Nat) : Prop := c = 2 * p + 1 ∨ c = 2 * p + 2

def pick (less : α → α → Bool) (h : List α) (m c : Nat) : Nat :=
  match h[c]?, h[m]? with
  | some x, some y => if less x y then c else m
  | _, _ => m

def siftFrom (less : α → α → Bool) : Nat → List α → Nat → List α
  | 0, h, _ => h
  | f + 1, h, i =>
    let m := pick less h (pick less h i (2 * i + 1)) (2 * i + 2)
    if m = i then h else siftFrom less f (h.swap i m) m

def siftDown (less : α → α → Bool) (h : List α) (i : Nat) : List α := siftFrom less h.length h i

def siftAll (less : α → α → Bool) : Nat → List α → List α
  | 0, h => h
  | i + 1, h => siftAll less i (siftDown less h i)

def heapify (less : α → α → Bool) (h : List α) : List α := siftAll less (h.length / 2) h

structure Weak (less : α → α → Bool) : Prop where
  asymm : ∀ {x y}, less x y = true → less y x = false
  trans : ∀ {x y z}, less y x = false → less z y = false → less z x = false

theorem Weak.irrefl {less : α → α → Bool} (hw : Weak less) (x : α) : less x x = false := by
  by_contra h
  have hx : less x x = true := by simpa using h
  rw [hw.asymm hx] at hx
  cases hx

def Ordered (less : α → α → Bool) (h : List α) (j : Nat) : Prop :=
  ∀ p c x y, j ≤ p → Child c p → h[p]? = some x → h[c]? = some y → less y x = false

structure Down (less : α → α → Bool) (h : List α) (j i : Nat) : Prop where
  off : ∀ p c x y, j ≤ p → p ≠ i → Child c p → h[p]? = some x → h[c]? = some y → less y x = false
  past : ∀ q c x y, j ≤ q → Child i q → Child c i → h[q]? = some x → h[c]? = some y → less y x = false

section
variable {less : α → α → Bool} {h : List α}

theorem perm_siftFrom : ∀ (f : Nat) (h : List α) (i : Nat), (siftFrom less f h i).Perm h
  | 0, h, _ => List.Perm.refl h
  | f + 1, h, i => by
    rw [siftFrom]
    split
    · exact List.Perm.refl h
    · exact (perm_siftFrom f _ _).trans (h.swap_perm _ _)

theorem perm_siftAll : ∀ (n : Nat) (h : List α), (siftAll less n h).Perm h
  | 0, _ => List.Perm.refl _
  | i + 1, _ => (perm_siftAll i _).trans (perm_siftFrom _ _ _)

theorem getElem?_swap {i j k : Nat} (hi : i < h.length) (hj : j < h.length) :
    (h.swap i j)[k]? = if k = j then h[i]? else if k = i then h[j]? else h[k]? := by
  rw [List.swap_eq_of_lt hi hj, List.getElem?_set, List.length_set, List.getElem?_set,
    List.getElem?_eq_getElem hi, List.getElem?_eq_getElem hj]
  by_cases hkj : k = j
  · subst hkj
    rw [if_pos rfl, if_pos hj, if_pos rfl]
  · rw [if_neg (Ne.symm hkj), if_neg hkj]
    by_cases hki : k = i
    · subst hki
      rw [if_pos rfl, if_pos hi, if_pos rfl]
    · rw [if_neg (Ne.symm hki), if_neg hki]

theorem pick_least (hw : Weak less) {m c : Nat} {y : α} (hm : h[m]? = some y) :
    ∃ y', h[pick less h m c]? = some y' ∧ less y y' = false ∧ (∀ z, h[c]? = some z → less z y' = false) ∧
      (pick less h m c = m ∨ pick less h m c = c) := by
  unfold pick
  rw [hm]
  cases hc : h[c]? with
  | none => exact ⟨y, hm, hw.irrefl y, (fun z hz => by cases hz), Or.inl rfl⟩
  | some x =>
    dsimp only
    by_cases hl : less x y = true
    · rw [if_pos hl]
      refine ⟨x, hc, hw.asymm hl, fun z hz => ?_, Or.inr rfl⟩
      cases hz
      exact hw.irrefl x
    · rw [if_neg hl]
      refine ⟨y, hm, hw.irrefl y, fun z hz => ?_, Or.inl rfl⟩
      cases hz
      simpa using hl

/-- **Sifting down puts one place in order**, where everything else from there on is. -/
theorem siftFrom_ordered (hw : Weak less) : ∀ {f : Nat} {h : List α} {i j : Nat}, j ≤ i → h.length ≤ i + f →
    Down less h j i → Ordered less (siftFrom less f h i) j
  | 0, h, i, j, hji, hf, hd => by
    intro p c x y hp hc hx hy
    by_cases hpi : p = i
    · have hlt : p < h.length := (List.getElem?_eq_some_iff.1 hx).1
      omega
    · exact hd.off p c x y hp hpi hc hx hy
  | f + 1, h, i, j, hji, hf, hd => by
    by_cases hin : i < h.length
    · have hi : h[i]? = some h[i] := List.getElem?_eq_getElem hin
      obtain ⟨u, hu, hiu, hlu, hu'⟩ := pick_least hw (c := 2 * i + 1) hi
      obtain ⟨w, hw', huw, hrw, hw''⟩ := pick_least hw (c := 2 * i + 2) hu
      rw [siftFrom]
      generalize hm' : pick less h (pick less h i (2 * i + 1)) (2 * i + 2) = m at hw' hw'' ⊢
      generalize pick less h i (2 * i + 1) = l at hu hu' hw''
      -- the place picked is not greater than the entry or any of its children
      have hleast : ∀ c y, Child c i → h[c]? = some y → less y w = false := by
        rintro c y (rfl | rfl) hy
        · exact hw.trans huw (hlu y hy)
        · exact hrw y hy
      have hiw : less h[i] w = false := hw.trans huw hiu
      by_cases hmi : m = i
      · rw [if_pos hmi]
        subst hmi
        rw [hi] at hw'
        cases hw'
        intro p c x y hp hc hx hy
        by_cases hpm : p = m
        · subst hpm
          rw [hi] at hx
          cases hx
          exact hleast c y hc hy
        · exact hd.off p c x y hp hpm hc hx hy
      · rw [if_neg hmi]
        have hchild : Child m i := by
          rcases hw'' with h1 | h1
          · rcases hu' with h2 | h2
            · exact absurd (h1.trans h2) hmi
            · exact Or.inl (h1.trans h2)
          · exact Or.inr h1
        have hmlt : m < h.length := (List.getElem?_eq_some_iff.1 hw').1
        have hgt : i < m := by
          rcases hchild with h1 | h1 <;> omega
        refine siftFrom_ordered hw (by omega) (by rw [List.length_swap]; omega) ⟨?_, ?_⟩
        · -- a place that is neither the hole now nor has it for a parent
          intro p c x y hp hpm hc hx hy
          rw [getElem?_swap hin hmlt] at hx hy
          rw [if_neg hpm] at hx
          by_cases hpi : p = i
          · subst hpi
            rw [if_pos rfl, hw'] at hx
            cases hx
            by_cases hcm : c = m
            · rw [if_pos hcm, hi] at hy
              cases hy
              exact hiw
            · have hcp : c ≠ p := by
                rcases hc with h1 | h1 <;> omega
              rw [if_neg hcm, if_neg hcp] at hy
              exact hleast c y hc hy
          · rw [if_neg hpi] at hx
            by_cases hcm : c = m
            · -- the hole has one parent
              have : p = i := by
                rw [hcm] at hc
                rcases hc with h1 | h1 <;> rcases hchild with h2 | h2 <;> omega
              exact absurd this hpi
            · rw [if_neg hcm] at hy
              by_cases hci : c = i
              · subst hci
                rw [if_pos rfl, hw'] at hy
                cases hy
                exact hd.past p m x w hp hc hchild hx hw'
              · rw [if_neg hci] at hy
                exact hd.off p c x y hp hpi hc hx hy
        · intro q c x y hq hmq hc hx hy
          have hqi : q = i := by
            rcases hmq with h1 | h1 <;> rcases hchild with h2 | h2 <;> omega
          subst hqi
          have hqm : q ≠ m := by omega
          have hcm : c ≠ m := by
            rcases hc with h1 | h1 <;> omega
          have hcq : c ≠ q := by
            rcases hc with h1 | h1 <;> omega
          rw [getElem?_swap hin hmlt, if_neg hqm, if_pos rfl, hw'] at hx
          rw [getElem?_swap hin hmlt, if_neg hcm, if_neg hcq] at hy
          cases hx
          exact hd.off m c w y (by omega) (by omega) hc hw' hy
    · -- nothing there
      have hnone : h[i]? = none := List.getElem?_eq_none (by omega)
      have hpick : ∀ m c, h[m]? = none → pick less h m c = m := by
        intro m c hm
        unfold pick
        rw [hm]
        cases h[c]? <;> rfl
      rw [siftFrom, hpick i _ hnone, hpick i _ hnone, if_pos rfl]
      intro p c x y hp hc hx hy
      by_cases hpi : p = i
      · subst hpi
        rw [hnone] at hx
        cases hx
      · exact hd.off p c x y hp hpi hc hx hy

theorem siftDown_ordered (hw : Weak less) {i : Nat} (ho : Ordered less h (i + 1)) :
    Ordered less (siftDown less h i) i := by
  refine siftFrom_ordered hw (Nat.le_refl i) (Nat.le_add_left _ _) ⟨?_, ?_⟩
  · intro p c x y hp hpi hc hx hy
    exact ho p c x y (by omega) hc hx hy
  · intro q c x y hq hiq
    rcases hiq with h1 | h1 <;> omega

theorem siftAll_ordered (hw : Weak less) : ∀ {n : Nat} {h : List α}, Ordered less h n → Ordered less
    (siftAll less n h) 0
  | 0, _, ho => ho
  | n + 1, h, ho => by
    rw [siftAll]
    exact siftAll_ordered hw (siftDown_ordered hw ho)

theorem heapify_ordered (hw : Weak less) (h : List α) : Ordered less (heapify less h) 0 := by
  refine siftAll_ordered hw (fun p c x y hp hc hx hy => ?_)
  -- from the middle on there are no children
  have := (List.getElem?_eq_some_iff.1 hy).1
  rcases hc with h1 | h1 <;> omega

/-- **The first of a heap is a least one.** -/
theorem first_least (hw : Weak less) (ho : Ordered less h 0) {x : α} (hx : h[0]? = some x) :
    ∀ {i : Nat} {y : α}, h[i]? = some y → less y x = false := by
  intro i
  induction i using Nat.strong_induction_on with
  | _ i ih =>
    intro y hy
    by_cases h0 : i = 0
    · subst h0
      rw [hx] at hy
      cases hy
      exact hw.irrefl x
    · have hchild : Child i ((i - 1) / 2) := by
        unfold Child
        omega
      have hlt : (i - 1) / 2 < h.length := by
        have := (List.getElem?_eq_some_iff.1 hy).1
        omega
      have hp := List.getElem?_eq_getElem hlt
      exact hw.trans (ih _ (by omega) hp) (ho _ i _ y (Nat.zero_le _) hchild hp hy)

end

end Sift
end Gbasic
