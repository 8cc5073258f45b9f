import Mathlib.Algebra.BigOperators.Group.List.Basic
import Mathlib.Algebra.BigOperators.Group.List.Lemmas
import Mathlib.Data.List.Induction
import Mathlib.Data.List.Nodup
import Mathlib.Tactic.Ring
/-!
# Tally — sums kept by key (library)

A list of keys and values with one value a key, and sums over the items of each key, which come to the sum over all of
them (`sum_by_key`).  Nothing here names a repository.
-/
namespace Gbasic
namespace Tally

open List (map_cons mem_cons nodup_cons sum_cons)

variable {κ ν ι : Type}

variable {k : κ} {l : List (κ × ν)}

/-! ## One value a key -/

section
variable [DecidableEq κ]

def find (k : κ) : List (κ × ν) → Option ν
  | [] => none
  | (k', v) :: l => if k' = k then some v else find k l

def put (k : κ) (v : ν) : List (κ × ν) → List (κ × ν)
  | [] => [(k, v)]
  | (k', v') :: l => if k' = k then (k, v) :: l else (k', v') :: put k v l

theorem find_put (k k' : κ) (v : ν) : ∀ l : List (κ × ν), find k' (put k v l) = if k = k' then some v else find k' l
  | [] => rfl
  | (i, w) :: l => by
    unfold put
    by_cases hi : i = k
    · subst hi
      rw [if_pos rfl]
      unfold find
      split_ifs <;> rfl
    · rw [if_neg hi]
      unfold find
      rw [find_put k k' v l]
      by_cases hi' : i = k'
      · subst hi'
        rw [if_pos rfl, if_pos rfl, if_neg (Ne.symm hi)]
      · rw [if_neg hi', if_neg hi']

theorem find_map {ν' : Type} (f : ν → ν') (k : κ) :
    ∀ l : List (κ × ν), find k (l.map (fun p => (p.1, f p.2))) = (find k l).map f
  | [] => rfl
  | (i, w) :: l => by
    rw [map_cons]
    unfold find
    by_cases hi : i = k
    · rw [if_pos hi, if_pos hi]
      rfl
    · rw [if_neg hi, if_neg hi, find_map f k l]

theorem put_map {ν' : Type} (f : ν → ν') (k : κ) (v : ν) :
    ∀ l : List (κ × ν), (put k v l).map (fun p => (p.1, f p.2)) = put k (f v) (l.map (fun p => (p.1, f p.2)))
  | [] => rfl
  | (i, w) :: l => by
    rw [map_cons]
    unfold put
    by_cases hi : i = k
    · rw [if_pos hi, if_pos hi, map_cons]
    · rw [if_neg hi, if_neg hi, map_cons, put_map f k v l]

theorem mem_keys_put {k' : κ} {v : ν} : k' ∈ (put k v l).map Prod.fst ↔ k' = k ∨ k' ∈ l.map Prod.fst := by
  induction l with
  | nil => simp [put]
  | cons p l ih =>
    rcases p with ⟨i, w⟩
    unfold put
    by_cases hi : i = k
    · subst hi
      simp
    · rw [if_neg hi, map_cons, mem_cons, ih, map_cons, mem_cons]
      exact or_left_comm

theorem nodup_put {v : ν} (h : (l.map Prod.fst).Nodup) : ((put k v l).map Prod.fst).Nodup := by
  induction l with
  | nil => simp [put]
  | cons p l ih =>
    rcases p with ⟨i, w⟩
    rw [map_cons, nodup_cons] at h
    unfold put
    by_cases hi : i = k
    · subst hi
      rw [if_pos rfl, map_cons, nodup_cons]
      exact h
    · rw [if_neg hi, map_cons, nodup_cons, mem_keys_put, not_or]
      exact ⟨⟨hi, h.1⟩, ih h.2⟩

theorem find_isSome : (find k l).isSome ↔ k ∈ l.map Prod.fst := by
  induction l with
  | nil => simp [find]
  | cons p l ih =>
    rcases p with ⟨i, w⟩
    unfold find
    by_cases hi : i = k
    · subst hi
      simp
    · rw [if_neg hi, ih, map_cons, mem_cons]
      exact ⟨.inr, fun hk => hk.resolve_left (Ne.symm hi)⟩

theorem find_eq_none : find k l = none ↔ k ∉ l.map Prod.fst := by
  rw [← find_isSome, Option.not_isSome_iff_eq_none]

theorem mem_of_find {v : ν} (h : find k l = some v) : (k, v) ∈ l := by
  induction l with
  | nil => cases h
  | cons p l ih =>
    rcases p with ⟨i, w⟩
    unfold find at h
    split_ifs at h with hi
    · subst hi
      cases h
      exact List.mem_cons_self ..
    · exact List.mem_cons_of_mem _ (ih h)

theorem find_of_mem {v : ν} (hl : (l.map Prod.fst).Nodup) (h : (k, v) ∈ l) : find k l = some v := by
  induction l with
  | nil => cases h
  | cons p l ih =>
    rcases p with ⟨i, w⟩
    rw [map_cons, nodup_cons] at hl
    unfold find
    rcases mem_cons.1 h with heq | hmem
    · cases heq
      rw [if_pos rfl]
    · have hi : i ≠ k := by
        rintro rfl
        exact hl.1 (List.mem_map.2 ⟨_, hmem, rfl⟩)
      rw [if_neg hi]
      exact ih hl.2 hmem

end

/-! ## Sums -/

def sumOf (p : ι → Prop) [DecidablePred p] (f : ι → Int) (l : List ι) : Int := ((l.filter p).map f).sum

section
variable {p q : ι → Prop} [DecidablePred p] [DecidablePred q] {f : ι → Int}

@[simp] theorem sumOf_nil : sumOf p f [] = 0 := rfl

theorem sumOf_cons (i : ι) (l : List ι) : sumOf p f (i :: l) = (if p i then f i else 0) + sumOf p f l := by
  unfold sumOf
  by_cases hi : p i
  · rw [List.filter_cons_of_pos (by simpa using hi), map_cons, sum_cons, if_pos hi]
  · rw [List.filter_cons_of_neg (by simpa using hi), if_neg hi, zero_add]

theorem sumOf_append (l l' : List ι) : sumOf p f (l ++ l') = sumOf p f l + sumOf p f l' := by
  unfold sumOf
  rw [List.filter_append, List.map_append, List.sum_append]

theorem sumOf_congr {l : List ι} (h : ∀ i ∈ l, p i ↔ q i) : sumOf p f l = sumOf q f l := by
  unfold sumOf
  have hfilter : l.filter (fun i => decide (p i)) = l.filter (fun i => decide (q i)) :=
    List.filter_congr (fun i hi => decide_eq_decide.2 (h i hi))
  rw [hfilter]

theorem sumOf_none {l : List ι} (h : ∀ i ∈ l, ¬ p i) : sumOf p f l = 0 := by
  unfold sumOf
  rw [List.filter_eq_nil_iff.2 (fun i hi => by simpa using h i hi)]
  rfl

theorem sumOf_all {l : List ι} (h : ∀ i ∈ l, p i) : sumOf p f l = (l.map f).sum := by
  unfold sumOf
  rw [List.filter_eq_self.2 (fun i hi => by simpa using h i hi)]

theorem sumOf_perm {l l' : List ι} (h : l.Perm l') : sumOf p f l = sumOf p f l' :=
  ((h.filter _).map _).sum_eq

theorem sumOf_map {α : Type} (g : α → ι) (l : List α) :
    sumOf p f (l.map g) = sumOf (fun a => p (g a)) (fun a => f (g a)) l := by
  induction l with
  | nil => rfl
  | cons a l ih => rw [map_cons, sumOf_cons, sumOf_cons, ih]

theorem sumOf_flatMap {α : Type} (g : α → List ι) (l : List α) :
    sumOf p f (l.flatMap g) = (l.map (fun a => sumOf p f (g a))).sum := by
  induction l with
  | nil => rfl
  | cons a l ih => rw [List.flatMap_cons, sumOf_append, ih, map_cons, sum_cons]

end

theorem sumOf_key [DecidableEq κ] {l : List (κ × Int)} (hl : (l.map Prod.fst).Nodup) (k : κ) :
    sumOf (fun r => r.1 = k) Prod.snd l = (find k l).getD 0 := by
  induction l with
  | nil => rfl
  | cons r l ih =>
    rcases r with ⟨i, x⟩
    rw [map_cons, nodup_cons] at hl
    rw [sumOf_cons, find]
    by_cases hi : i = k
    · rw [if_pos hi, if_pos hi, sumOf_none, add_zero]
      · rfl
      · rintro r hr rfl
        exact hl.1 (hi ▸ List.mem_map.2 ⟨r, hr, rfl⟩)
    · rw [if_neg hi, if_neg hi, zero_add, ih hl.2]

/-- **The sums by key come to the sum**, over keys without a repetition that have every item's. -/
theorem sum_by_key [DecidableEq κ] (key : ι → κ) (f : ι → Int) {keys : List κ} (hkeys : keys.Nodup) :
    ∀ {l : List ι}, (∀ i ∈ l, key i ∈ keys) →
      (keys.map (fun k => sumOf (fun i => key i = k) f l)).sum = (l.map f).sum
  | [], _ => by simp
  | i :: l, h => by
    have ih := sum_by_key key f hkeys (fun j hj => h j (List.mem_cons_of_mem _ hj))
    have hone : (keys.map (fun k => if key i = k then f i else 0)).sum = f i := by
      simp only [eq_comm (a := key i)]
      rw [List.sum_map_ite_eq, List.count_eq_one_of_mem hkeys (h i (List.mem_cons_self ..)), one_nsmul]
      simp
    rw [map_cons, sum_cons, ← ih, ← hone, ← List.sum_map_add]
    exact congrArg List.sum (List.map_congr_left (fun k _ => sumOf_cons i l))

/-! ## Sums kept by key -/

section
variable [DecidableEq κ] (key : ι → κ) (f : ι → Int)

/-- The sums of the items of each key, in the order in which the keys first come. -/
def tally (items : List ι) : List (κ × Int) :=
  items.foldl (fun out i => put (key i) ((find (key i) out).getD 0 + f i) out) []

theorem tally_nil : tally key f [] = [] := rfl

theorem tally_snoc (items : List ι) (i : ι) : tally key f (items ++ [i]) =
    put (key i) ((find (key i) (tally key f items)).getD 0 + f i) (tally key f items) := by
  unfold tally
  rw [List.foldl_append]
  rfl

theorem nodup_tally (items : List ι) : ((tally key f items).map Prod.fst).Nodup := by
  induction items using List.reverseRecOn with
  | nil => exact List.nodup_nil
  | append_singleton items i ih =>
    rw [tally_snoc]
    exact nodup_put ih

theorem mem_keys_tally (k : κ) (items : List ι) : k ∈ (tally key f items).map Prod.fst ↔ ∃ i ∈ items, key i = k := by
  induction items using List.reverseRecOn with
  | nil => simp [tally_nil]
  | append_singleton items i ih =>
    rw [tally_snoc, mem_keys_put, ih]
    constructor
    · rintro (rfl | ⟨j, hj, hk⟩)
      · exact ⟨i, List.mem_append_right _ (List.mem_singleton_self i), rfl⟩
      · exact ⟨j, List.mem_append_left _ hj, hk⟩
    · rintro ⟨j, hj, hk⟩
      rcases List.mem_append.1 hj with hj | hj
      · exact .inr ⟨j, hj, hk⟩
      · rw [List.mem_singleton.1 hj] at hk
        exact .inl hk.symm

/-- **A key's sum.** -/
theorem find_tally (k : κ) (items : List ι) :
    (find k (tally key f items)).getD 0 = sumOf (fun i => key i = k) f items := by
  induction items using List.reverseRecOn with
  | nil => rfl
  | append_singleton items i ih =>
    rw [tally_snoc, find_put, sumOf_append, sumOf_cons, sumOf_nil, add_zero]
    by_cases hk : key i = k
    · rw [if_pos hk, if_pos hk, ← ih, hk]
      rfl
    · rw [if_neg hk, if_neg hk, add_zero, ih]

theorem mem_tally {x : Int} {items : List ι} (h : (k, x) ∈ tally key f items) :
    x = sumOf (fun i => key i = k) f items := by
  rw [← find_tally, find_of_mem (nodup_tally key f items) h]
  rfl

/-- **The sums come to the sum of all.** -/
theorem sum_tally (items : List ι) : ((tally key f items).map Prod.snd).sum = (items.map f).sum := by
  rw [← sum_by_key key f (nodup_tally key f items) (fun i hi => (mem_keys_tally key f _ items).2 ⟨i, hi, rfl⟩),
    List.map_map]
  exact congrArg List.sum (List.map_congr_left (fun p hp => mem_tally key f hp))

end

end Tally
end Gbasic
