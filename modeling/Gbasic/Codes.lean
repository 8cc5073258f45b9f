import Mathlib.Order.Compare
import Mathlib.Order.Lattice
import Mathlib.Data.List.Lex
/-!
# Codes — strings of bytes compared as memory is, and codes that settle a comparison (library)

`memcmp` compares two strings letter by letter, a proper prefix first.  `settle` is the same comparison where neither
string is a proper prefix of the other, and nothing where one is: two strings that settle compare the same whatever
follows them, so a code whose words settle pairwise compares concatenations word by word (`settle_append`), and turning
every letter over turns the answer over (`settle_map_rev`).  Nothing here names a repository.
-/
namespace Gbasic

variable {α : Type} [LinearOrder α]

/-- Letter by letter; a proper prefix is less. -/
def memcmp : List α → List α → Ordering
  | [], [] => .eq
  | [], _ :: _ => .lt
  | _ :: _, [] => .gt
  | a :: l, b :: m => (cmp a b).then (memcmp l m)

def settle : List α → List α → Option Ordering
  | [], [] => some .eq
  | [], _ :: _ => none
  | _ :: _, [] => none
  | a :: l, b :: m =>
    match cmp a b with
    | .eq => settle l m
    | o => some o

/-! ## Comparisons, one after another -/

@[simp] theorem cmp_same (a : α) : cmp a a = .eq := cmp_self_eq_eq a

theorem memcmp_cons (a b : α) (l m : List α) : memcmp (a :: l) (b :: m) = (cmp a b).then (memcmp l m) := rfl

/-! ## Strings that settle -/

@[simp] theorem settle_nil : settle ([] : List α) [] = some .eq := rfl

theorem settle_cons (a b : α) (l m : List α) :
    settle (a :: l) (b :: m) = match cmp a b with
      | .eq => settle l m
      | o => some o := rfl

theorem settle_cons_same (a : α) (l m : List α) : settle (a :: l) (a :: m) = settle l m := by
  rw [settle_cons, cmp_same]

theorem settle_cons_ne {a b : α} (h : a ≠ b) (l m : List α) : settle (a :: l) (b :: m) = some (cmp a b) := by
  rw [settle_cons]
  rcases ho : cmp a b with _ | _ | _
  · rfl
  · exact absurd (cmp_eq_eq_iff a b |>.1 ho) h
  · rfl

theorem settle_cons_lt {a b : α} (h : a < b) (l m : List α) : settle (a :: l) (b :: m) = some .lt := by
  rw [settle_cons_ne h.ne, (cmp_eq_lt_iff a b).2 h]

theorem settle_cons_gt {a b : α} (h : b < a) (l m : List α) : settle (a :: l) (b :: m) = some .gt := by
  rw [settle_cons_ne h.ne', (cmp_eq_gt_iff a b).2 h]

theorem settle_one (a b : α) : settle [a] [b] = some (cmp a b) := by
  by_cases h : a = b
  · rw [h, settle_cons_same, settle_nil, cmp_same]
  · exact settle_cons_ne h [] []

@[simp] theorem settle_self : ∀ l : List α, settle l l = some .eq
  | [] => rfl
  | a :: l => by rw [settle_cons_same, settle_self l]

/-- **A code compares word by word.** -/
theorem settle_append : ∀ {l m l' m' : List α} {o o' : Ordering}, settle l m = some o → settle l' m' = some o' →
    settle (l ++ l') (m ++ m') = some (o.then o')
  | [], [], _, _, o, o', h, h' => by
    cases h
    exact h'
  | [], _ :: _, _, _, _, _, h, _ => by cases h
  | _ :: _, [], _, _, _, _, h, _ => by cases h
  | a :: l, b :: m, l', m', o, o', h, h' => by
    by_cases hab : a = b
    · subst hab
      rw [settle_cons_same] at h
      rw [List.cons_append, List.cons_append, settle_cons_same]
      exact settle_append h h'
    · rw [settle_cons_ne hab] at h
      rw [List.cons_append, List.cons_append, settle_cons_ne hab]
      cases h
      rcases ho : cmp a b with _ | _ | _
      · rfl
      · exact absurd ((cmp_eq_eq_iff a b).1 ho) hab
      · rfl

theorem memcmp_of_settle : ∀ {l m : List α} {o : Ordering}, settle l m = some o → memcmp l m = o
  | [], [], _, h => by cases h; rfl
  | [], _ :: _, _, h => by cases h
  | _ :: _, [], _, h => by cases h
  | a :: l, b :: m, o, h => by
    rw [memcmp_cons]
    by_cases hab : a = b
    · subst hab
      rw [settle_cons_same] at h
      rw [cmp_same, memcmp_of_settle h]
      rfl
    · rw [settle_cons_ne hab] at h
      cases h
      rcases ho : cmp a b with _ | _ | _
      · rfl
      · exact absurd ((cmp_eq_eq_iff a b).1 ho) hab
      · rfl

theorem eq_of_settle_eq : ∀ {l m : List α}, settle l m = some .eq → l = m
  | [], [], _ => rfl
  | [], _ :: _, h => by cases h
  | _ :: _, [], h => by cases h
  | a :: l, b :: m, h => by
    by_cases hab : a = b
    · subst hab
      rw [settle_cons_same] at h
      rw [eq_of_settle_eq h]
    · rw [settle_cons_ne hab] at h
      exact absurd ((cmp_eq_eq_iff a b).1 (Option.some.inj h)) hab

/-- **Letters turned over turn the comparison over.** -/
theorem settle_map_rev {f : α → α} (hf : ∀ a b, a < b → f b < f a) : ∀ {l m : List α} {o : Ordering},
    settle l m = some o → settle (l.map f) (m.map f) = some o.swap
  | [], [], _, h => by cases h; rfl
  | [], _ :: _, _, h => by cases h
  | _ :: _, [], _, h => by cases h
  | a :: l, b :: m, o, h => by
    rw [List.map_cons, List.map_cons]
    rcases lt_trichotomy a b with hab | hab | hab
    · rw [settle_cons_lt hab] at h
      cases h
      exact settle_cons_gt (hf a b hab) _ _
    · subst hab
      rw [settle_cons_same] at h
      rw [settle_cons_same]
      exact settle_map_rev hf h
    · rw [settle_cons_gt hab] at h
      cases h
      exact settle_cons_lt (hf b a hab) _ _

/-! ## The order of memory is the order of lists -/

theorem memcmp_compares : ∀ l m : List α, (memcmp l m).Compares l m
  | [], [] => rfl
  | [], b :: m => List.nil_lt_cons b m
  | a :: l, [] => List.nil_lt_cons a l
  | a :: l, b :: m => by
    rw [memcmp_cons]
    rcases lt_trichotomy a b with hab | hab | hab
    · rw [(cmp_eq_lt_iff a b).2 hab]
      exact List.cons_lt_cons_iff.2 (.inl hab)
    · subst hab
      rw [cmp_same]
      have ih := memcmp_compares l m
      show (memcmp l m).Compares (a :: l) (a :: m)
      rcases ho : memcmp l m with _ | _ | _
      · rw [ho] at ih
        exact List.cons_lt_cons_iff.2 (.inr ⟨rfl, ih⟩)
      · rw [ho] at ih
        exact congrArg (a :: ·) ih
      · rw [ho] at ih
        exact List.cons_lt_cons_iff.2 (.inr ⟨rfl, ih⟩)
    · rw [(cmp_eq_gt_iff a b).2 hab]
      exact List.cons_lt_cons_iff.2 (.inl hab)

theorem compares_of_settle {l m : List α} {o : Ordering} (h : settle l m = some o) : o.Compares l m :=
  memcmp_of_settle h ▸ memcmp_compares l m

/-- **What stands between two strings that begin alike begins so too.** -/
theorem begins_of_between : ∀ {p a b k : List α}, p ++ a ≤ k → k ≤ p ++ b → ∃ d, k = p ++ d
  | [], _, _, k, _, _ => ⟨k, rfl⟩
  | x :: p, a, b, [], h, _ => absurd (List.nil_lt_cons x (p ++ a)) (not_lt.2 h)
  | x :: p, a, b, y :: k, h, h' => by
    rcases lt_trichotomy x y with hxy | hxy | hxy
    · exact absurd (List.cons_lt_cons_iff.2 (.inl hxy) : x :: (p ++ b) < y :: k) (not_lt.2 h')
    · subst hxy
      have hle : p ++ a ≤ k := not_lt.1 (fun hlt => not_lt.2 h (List.cons_lt_cons_iff.2 (.inr ⟨rfl, hlt⟩)))
      have hle' : k ≤ p ++ b := not_lt.1 (fun hlt => not_lt.2 h' (List.cons_lt_cons_iff.2 (.inr ⟨rfl, hlt⟩)))
      obtain ⟨d, rfl⟩ := begins_of_between hle hle'
      exact ⟨d, rfl⟩
    · exact absurd (List.cons_lt_cons_iff.2 (.inl hxy) : y :: k < x :: (p ++ a)) (not_lt.2 h)

end Gbasic
