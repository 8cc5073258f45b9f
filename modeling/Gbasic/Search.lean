import Mathlib.Data.List.Flatten
import Mathlib.Data.List.TakeWhile
import Mathlib.Tactic.Common
/-!
# Search — binary search for the end of a first part

`search` halves an interval until it holds nothing.  Of a list whose members before the target come first it finds how
many of them there are, that is where the first part ends.
-/
namespace Search

/-- `while (lo < hi)`, with `before mid` deciding which half goes on. -/
def halve (before : Nat → Bool) : (n lo hi : Nat) → Nat
  | 0, lo, _ => lo
  | n + 1, lo, hi =>
    if lo < hi then
      if before ((lo + hi) / 2) then halve before n ((lo + hi) / 2 + 1) hi else halve before n lo ((lo + hi) / 2)
    else lo

def search (before : Nat → Bool) (n : Nat) : Nat := halve before n 0 n

theorem halve_eq {before : Nat → Bool} {m : Nat} (hb : ∀ i, i < m → before i = true) :
    ∀ (n lo hi : Nat), lo ≤ m → m ≤ hi → hi ≤ lo + n → (∀ i, m ≤ i → i < hi → before i = false) →
      halve before n lo hi = m
  | 0, lo, hi, hlo, hhi, hn, _ => by
    rw [halve]
    omega
  | n + 1, lo, hi, hlo, hhi, hn, ha => by
    rw [halve]
    by_cases hlt : lo < hi
    · rw [if_pos hlt]
      by_cases hm : (lo + hi) / 2 < m
      · rw [if_pos (hb _ hm)]
        exact halve_eq hb n _ _ (by omega) hhi (by omega) ha
      · have hf : before ((lo + hi) / 2) = false := ha _ (by omega) (by omega)
        rw [hf, if_neg (by decide)]
        exact halve_eq hb n _ _ hlo (by omega) (by omega) (fun i hi₁ hi₂ => ha i hi₁ (by omega))
    · rw [if_neg hlt]
      omega

variable {α : Type}

def searchList (p : α → Bool) (l : List α) : Nat :=
  search (fun i => match l[i]? with | some a => p a | none => false) l.length

def First (p : α → Bool) (l : List α) : Prop := l.Pairwise (fun a b => p b = true → p a = true)

theorem First.cons {p : α → Bool} {a : α} {l : List α} (h : First p (a :: l)) : First p l := (List.pairwise_cons.1 h).2

theorem First.of_false {p : α → Bool} {a : α} {l : List α} (h : First p (a :: l)) (ha : p a = false) :
    ∀ b ∈ l, p b = false := by
  intro b hb
  by_contra hc
  have := (List.pairwise_cons.1 h).1 b hb (by simpa using hc)
  rw [ha] at this
  cases this

theorem First.append {p : α → Bool} {l m : List α} : First p (l ++ m) → First p l ∧ First p m ∧ ∀ a ∈ l, ∀ b ∈ m,
    p b → p a :=
  fun h => List.pairwise_append.1 h

theorem First.dropWhile {p : α → Bool} : ∀ {l : List α}, First p l → ∀ a ∈ l.dropWhile p, p a = false
  | [], _, _, ha => by cases ha
  | b :: l, h, a, ha => by
    by_cases hb : p b = true
    · rw [List.dropWhile_cons_of_pos hb] at ha
      exact First.dropWhile h.cons a ha
    · have hb : p b = false := by simpa using hb
      rw [List.dropWhile_cons_of_neg (by simp [hb])] at ha
      rcases List.mem_cons.1 ha with rfl | ha
      · exact hb
      · exact h.of_false hb a ha

theorem take_takeWhile (p : α → Bool) (l : List α) : l.take (l.takeWhile p).length = l.takeWhile p := by
  have h := List.takeWhile_append_dropWhile (p := p) (l := l)
  generalize l.takeWhile p = t at h ⊢
  rw [← h, List.take_left]

theorem drop_takeWhile (p : α → Bool) (l : List α) : l.drop (l.takeWhile p).length = l.dropWhile p := by
  have h := List.takeWhile_append_dropWhile (p := p) (l := l)
  generalize l.takeWhile p = t at h ⊢
  generalize l.dropWhile p = d at h ⊢
  rw [← h, List.drop_left]

theorem takeWhile_get {p : α → Bool} : ∀ (l : List α) (i : Nat), i < (l.takeWhile p).length →
    ∃ a, l[i]? = some a ∧ p a = true
  | [], i, hi => by cases hi
  | b :: l, i, hi => by
    by_cases hb : p b = true
    · rw [List.takeWhile_cons_of_pos hb] at hi
      cases i with
      | zero => exact ⟨b, rfl, hb⟩
      | succ i => exact takeWhile_get l i (Nat.lt_of_succ_lt_succ hi)
    · rw [List.takeWhile_cons_of_neg hb] at hi
      cases hi

/-- **The search ends where the first part does.** -/
theorem searchList_eq {p : α → Bool} {l : List α} (h : First p l) : searchList p l = (l.takeWhile p).length := by
  have hl : (l.takeWhile p).length ≤ l.length := (List.takeWhile_prefix p).length_le
  refine halve_eq (fun i hi => ?_) _ _ _ (Nat.zero_le _) hl (by omega) (fun i hi hlt => ?_)
  · obtain ⟨a, ha, hp⟩ := takeWhile_get l i hi
    simp only [ha, hp]
  · have hg : l[i]? = (l.dropWhile p)[i - (l.takeWhile p).length]? := by
      conv_lhs => rw [← List.takeWhile_append_dropWhile (p := p) (l := l)]
      rw [List.getElem?_append_right hi]
    rcases hd : (l.dropWhile p)[i - (l.takeWhile p).length]? with _ | a
    · simp only [hg, hd]
    · simp only [hg, hd]
      exact h.dropWhile a (List.mem_of_getElem? hd)

theorem searchList_one (p : α → Bool) (a : α) : searchList p [a] = if p a = true then 1 else 0 := by
  rcases hp : p a with _ | _ <;> simp [searchList, search, halve, hp]

theorem searchList_map {β : Type} (p : β → Bool) (f : α → β) (l : List α) :
    searchList (fun a => p (f a)) l = searchList p (l.map f) := by
  rw [searchList, searchList, List.length_map]
  congr 1
  funext i
  rw [List.getElem?_map]
  cases l[i]? <;> rfl

/-! ## The two sides of the end -/

variable {p : α → Bool} {l m : List α}

theorem find_after (hl : ∀ a ∈ l, p a = true) (hm : ∀ a ∈ m, p a = false) :
    (l ++ m).find? (fun a => !p a) = m.head? := by
  have hnone : l.find? (fun a => !p a) = none := List.find?_eq_none.2 (fun a ha => by simp [hl a ha])
  rw [List.find?_append, hnone, Option.none_or]
  cases m with
  | nil => rfl
  | cons b m => rw [List.find?_cons_of_pos (by simp [hm b (List.mem_cons_self ..)]), List.head?_cons]

theorem find_before (hl : ∀ a ∈ l, p a = true) (hm : ∀ a ∈ m, p a = false) :
    (l ++ m).reverse.find? p = l.getLast? := by
  have hnone : m.reverse.find? p = none := List.find?_eq_none.2 (fun a ha => by simp [hm a (List.mem_reverse.1 ha)])
  rw [List.reverse_append, List.find?_append, hnone, Option.none_or, ← List.head?_reverse]
  rcases hr : l.reverse with _ | ⟨b, r⟩
  · rfl
  · have hb : p b = true := hl b (List.mem_reverse.1 (by rw [hr]; exact List.mem_cons_self ..))
    rw [List.find?_cons_of_pos hb, List.head?_cons]

end Search
