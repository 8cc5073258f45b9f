import Mathlib.Data.List.Basic
import Mathlib.Data.List.Range
/-!
# Copies — a list's entries kept by how many of their key stood before (library)

Two entries are copies where they have one key.  `keptFrom` keeps an entry by its key and by how many copies of it came
before; how many are kept of each key is then a count over a range.  Nothing here names a repository.
-/
namespace Gbasic
namespace Copies

variable {α κ : Type} [DecidableEq κ] (key : α → κ)

def copies (l : List α) (k : κ) : Nat := l.countP (fun a => decide (key a = k))

def keptFrom (keep : κ → Nat → Bool) : List α → List α → List α
  | _, [] => []
  | done, a :: l =>
    if keep (key a) (copies key done (key a)) then a :: keptFrom keep (done ++ [a]) l else keptFrom keep (done ++ [a]) l

def firsts (l : List α) : List α := keptFrom key (fun _ i => decide (i = 0)) [] l

variable {key}

@[simp] theorem copies_nil (k : κ) : copies key [] k = 0 := rfl

theorem copies_append (l m : List α) (k : κ) : copies key (l ++ m) k = copies key l k + copies key m k :=
  List.countP_append

theorem copies_cons (a : α) (l : List α) (k : κ) :
    copies key (a :: l) k = (if key a = k then 1 else 0) + copies key l k := by
  rw [copies, List.countP_cons, copies]
  by_cases h : key a = k
  · rw [if_pos h, if_pos (decide_eq_true h)]
    omega
  · rw [if_neg h, if_neg (by simpa using h)]
    omega

theorem copies_singleton (a : α) (k : κ) : copies key [a] k = if key a = k then 1 else 0 := by
  rw [copies_cons, copies_nil, Nat.add_zero]

theorem copies_map {β : Type} (f : β → α) (l : List β) (k : κ) :
    copies key (l.map f) k = copies (fun b => key (f b)) l k :=
  List.countP_map

theorem keptFrom_map {β : Type} (f : β → α) (keep : κ → Nat → Bool) : ∀ l done : List β,
    keptFrom key keep (done.map f) (l.map f) = (keptFrom (fun b => key (f b)) keep done l).map f
  | [], _ => rfl
  | b :: l, done => by
    have ih := keptFrom_map f keep l (done ++ [b])
    rw [List.map_append, List.map_singleton] at ih
    rw [List.map_cons, keptFrom, keptFrom, copies_map]
    split
    · rw [ih, List.map_cons]
    · exact ih

/-! ## How many are kept -/

/-- **Of each key as many are kept** as the places among its copies that are. -/
theorem copies_keptFrom (keep : κ → Nat → Bool) (k : κ) : ∀ l done : List α,
    copies key (keptFrom key keep done l) k =
      (List.range (copies key l k)).countP (fun i => keep k (copies key done k + i))
  | [], done => rfl
  | a :: l, done => by
    have ih := copies_keptFrom keep k l (done ++ [a])
    rw [copies_append, copies_singleton] at ih
    rw [keptFrom, copies_cons]
    by_cases hk : key a = k
    · subst hk
      rw [if_pos rfl] at ih
      rw [if_pos rfl, Nat.add_comm 1, List.range_succ_eq_map, List.countP_cons, Nat.add_zero, List.countP_map]
      have hshift : ((fun i => keep (key a) (copies key done (key a) + i)) ∘ Nat.succ) =
          fun i => keep (key a) (copies key done (key a) + 1 + i) := by
        funext i
        rw [Function.comp_apply, Nat.succ_eq_add_one, Nat.add_assoc, Nat.add_comm 1]
      rw [hshift, ← ih]
      by_cases hkeep : keep (key a) (copies key done (key a)) = true
      · rw [if_pos hkeep, if_pos hkeep, copies_cons, if_pos rfl]
        omega
      · rw [if_neg hkeep, if_neg hkeep, Nat.add_zero]
    · rw [if_neg hk, Nat.add_zero] at ih
      rw [if_neg hk, Nat.zero_add]
      split
      · rw [copies_cons, if_neg hk, ih, Nat.zero_add]
      · exact ih

theorem countP_range_lt (n : Nat) : ∀ m : Nat, (List.range m).countP (fun i => decide (i < n)) = min m n
  | 0 => by simp
  | m + 1 => by
    rw [List.range_succ, List.countP_append, countP_range_lt n m, List.countP_singleton]
    by_cases h : m < n
    · rw [if_pos (decide_eq_true h)]
      omega
    · rw [if_neg (by simpa using h)]
      omega

theorem countP_range_ge (n : Nat) : ∀ m : Nat, (List.range m).countP (fun i => decide (n ≤ i)) = m - n
  | 0 => by simp
  | m + 1 => by
    rw [List.range_succ, List.countP_append, countP_range_ge n m, List.countP_singleton]
    by_cases h : n ≤ m
    · rw [if_pos (decide_eq_true h)]
      omega
    · rw [if_neg (by simpa using h)]
      omega

/-! ## In which order -/

theorem keptFrom_true : ∀ l done : List α, keptFrom key (fun _ _ => true) done l = l
  | [], _ => rfl
  | a :: l, done => by rw [keptFrom, if_pos rfl, keptFrom_true l]

theorem keptFrom_sublist (keep : κ → Nat → Bool) : ∀ l done : List α, (keptFrom key keep done l).Sublist l
  | [], _ => List.Sublist.slnil
  | a :: l, done => by
    rw [keptFrom]
    split
    · exact (keptFrom_sublist keep l _).cons_cons a
    · exact (keptFrom_sublist keep l _).cons a

theorem keptFrom_mono {keep keep' : κ → Nat → Bool} (h : ∀ k i, keep k i = true → keep' k i = true) :
    ∀ l done : List α, (keptFrom key keep done l).Sublist (keptFrom key keep' done l)
  | [], _ => List.Sublist.slnil
  | a :: l, done => by
    rw [keptFrom, keptFrom]
    by_cases hk : keep (key a) (copies key done (key a)) = true
    · rw [if_pos hk, if_pos (h _ _ hk)]
      exact (keptFrom_mono h l _).cons_cons a
    · rw [if_neg hk]
      split
      · exact (keptFrom_mono h l _).cons a
      · exact keptFrom_mono h l _

theorem firsts_keptFrom {keep : κ → Nat → Bool} (h : ∀ k i, keep k i = true → keep k 0 = true) :
    ∀ l done done' : List α, (∀ k, copies key done' k = 0 ↔ copies key done k = 0 ∨ keep k 0 = false) →
      keptFrom key (fun _ i => decide (i = 0)) done' (keptFrom key keep done l) =
        keptFrom key (fun k i => decide (i = 0) && keep k 0) done l
  | [], _, _, _ => rfl
  | a :: l, done, done', hsame => by
    have ha := hsame (key a)
    -- other keys have the copies they had
    have hother : ∀ k, key a ≠ k → (copies key (done ++ [a]) k = copies key done k) := by
      intro k hk
      rw [copies_append, copies_singleton, if_neg hk, Nat.add_zero]
    have hown : copies key (done ++ [a]) (key a) ≠ 0 := by
      rw [copies_append, copies_singleton, if_pos rfl]
      omega
    rw [keptFrom]
    by_cases hkeep : keep (key a) (copies key done (key a)) = true
    · have hfirst := h _ _ hkeep
      rw [if_pos hkeep, keptFrom, keptFrom, hfirst, Bool.and_true]
      have ih := firsts_keptFrom h l (done ++ [a]) (done' ++ [a]) (by
        intro k
        by_cases hk : key a = k
        · subst hk
          rw [hfirst, copies_append, copies_singleton, if_pos rfl]
          exact iff_of_false (by omega) (by simpa using hown)
        · rw [hother k hk, copies_append, copies_singleton, if_neg hk, Nat.add_zero]
          exact hsame k)
      rw [hfirst] at ha
      rw [ih]
      by_cases hz : copies key done (key a) = 0
      · rw [if_pos (decide_eq_true hz), if_pos (decide_eq_true (ha.2 (Or.inl hz)))]
      · have hz' : ¬copies key done' (key a) = 0 := fun h0 => (ha.1 h0).elim hz Bool.noConfusion
        rw [if_neg (by simpa using hz'), if_neg (by simpa using hz)]
    · have hnot : ¬(decide (copies key done (key a) = 0) && keep (key a) 0) = true := by
        rw [Bool.and_eq_true, decide_eq_true_eq]
        rintro ⟨hz, hfirst⟩
        rw [hz] at hkeep
        exact hkeep hfirst
      rw [if_neg hkeep, keptFrom, if_neg hnot]
      refine firsts_keptFrom h l (done ++ [a]) done' (fun k => ?_)
      by_cases hk : key a = k
      · subst hk
        rw [ha]
        refine or_congr_left' (fun hfirst => iff_of_false (fun hz => ?_) hown)
        rw [hz] at hkeep
        rw [Bool.not_eq_false] at hfirst
        exact hkeep hfirst
      · rw [hother k hk]
        exact hsame k

/-- **The firsts of what is kept** stand as they do among all. -/
theorem firsts_sublist {keep : κ → Nat → Bool} (h : ∀ k i, keep k i = true → keep k 0 = true) (l : List α) :
    (firsts key (keptFrom key keep [] l)).Sublist (firsts key l) := by
  rw [firsts, firsts_keptFrom h l [] [] (fun k => by simp), firsts]
  refine keptFrom_mono (fun k i hk => ?_) l []
  rw [Bool.and_eq_true] at hk
  exact hk.1

/-! ## Where they stood -/

variable (key)

def places (keep : κ → Nat → Bool) : List α → List α → List Nat
  | _, [] => []
  | done, a :: l =>
    if keep (key a) (copies key done (key a)) then done.length :: places keep (done ++ [a]) l
    else places keep (done ++ [a]) l

variable {key}

theorem places_mem {keep : κ → Nat → Bool} : ∀ {l done : List α} {i : Nat}, i ∈ places key keep done l →
    done.length ≤ i ∧ i < done.length + l.length
  | [], _, _, h => by cases h
  | a :: l, done, i, h => by
    have hrest : i ∈ places key keep (done ++ [a]) l → done.length ≤ i ∧ i < done.length + (a :: l).length := by
      intro h
      have hi := places_mem h
      rw [List.length_append, List.length_singleton] at hi
      rw [List.length_cons]
      omega
    rw [places] at h
    split at h
    · rcases List.mem_cons.1 h with rfl | h
      · rw [List.length_cons]
        omega
      · exact hrest h
    · exact hrest h

theorem length_places (keep : κ → Nat → Bool) : ∀ l done : List α, (places key keep done l).length ≤ l.length
  | [], _ => Nat.le_refl 0
  | a :: l, done => by
    have := length_places keep l (done ++ [a])
    rw [places, List.length_cons]
    split
    · rw [List.length_cons]
      omega
    · omega

theorem places_ascend (keep : κ → Nat → Bool) : ∀ l done : List α, (places key keep done l).Pairwise (fun i j => i < j)
  | [], _ => List.Pairwise.nil
  | a :: l, done => by
    rw [places]
    split
    · refine List.pairwise_cons.2 ⟨fun i hi => ?_, places_ascend keep l _⟩
      have := (places_mem hi).1
      rw [List.length_append, List.length_singleton] at this
      omega
    · exact places_ascend keep l _

theorem map_places (keep : κ → Nat → Bool) : ∀ l done more : List α,
    (places key keep done l).map (fun i => (done ++ l ++ more)[i]?) = (keptFrom key keep done l).map some
  | [], _, _ => rfl
  | a :: l, done, more => by
    have ih := map_places keep l (done ++ [a]) more
    rw [List.append_assoc done, List.singleton_append] at ih
    have ha : (done ++ a :: l ++ more)[done.length]? = some a := by
      rw [List.append_assoc, List.getElem?_append_right (Nat.le_refl _), Nat.sub_self]
      rfl
    rw [places, keptFrom]
    split
    · rw [List.map_cons, List.map_cons, ih, ha]
    · exact ih

end Copies
end Gbasic
