import Mathlib.Data.List.Sort
/-!
# MergePasses — a bottom-up merge sort (library)

Runs of a width are merged two by two into runs of twice the width, until one run is all, the left run's head going
first where neither is before the other.  Where the comparison is transitive the result is sorted, has the entries it
was given, and keeps the order of those that are level.  Nothing here names a repository.
-/
namespace Gbasic
namespace MergePasses

open Std (TransCmp OrientedCmp)
open List (length_pos_iff length_drop nil_merge nil_append append_nil cons_merge_cons filter_cons filter_append
  drop_drop drop_zero length_take mem_cons_self)

variable {α : Type} (cmp : α → α → Ordering)

def merged (l r : List α) : List α := l.merge r (fun a b => (cmp a b).isLE)

def mergePass (width : Nat) (l : List α) : List α :=
  if 0 < width ∧ l ≠ [] then
    merged cmp (l.take width) ((l.drop width).take width) ++ mergePass width (l.drop (2 * width))
  else l
termination_by l.length
decreasing_by
  rename_i h
  have := length_pos_iff.2 h.2
  rw [length_drop]
  omega

def mergePasses (count width : Nat) (l : List α) : List α :=
  if 0 < width ∧ width < count then mergePasses count (width * 2) (mergePass cmp width l) else l
termination_by count - width

def bottomUp (l : List α) : List α := mergePasses cmp l.length 1 l

/-- What a stable sort makes of a list. -/
structure StableSorted (l out : List α) : Prop where
  perm : out.Perm l
  sorted : out.Pairwise (fun a b => (cmp a b).isLE)
  level : ∀ x, out.filter (fun y => decide (cmp x y = .eq)) = l.filter (fun y => decide (cmp x y = .eq))

variable {cmp}

/-! ## Merges -/

theorem merged_perm (l r : List α) : (merged cmp l r).Perm (l ++ r) := List.merge_perm_append _

theorem merged_length (l r : List α) : (merged cmp l r).length = l.length + r.length := by
  rw [(merged_perm l r).length_eq, List.length_append]

theorem merged_sorted [TransCmp cmp] {l r : List α} (hl : l.Pairwise (fun a b => (cmp a b).isLE))
    (hr : r.Pairwise (fun a b => (cmp a b).isLE)) : (merged cmp l r).Pairwise (fun a b => (cmp a b).isLE) := by
  refine @List.pairwise_merge _ (fun a b => (cmp a b).isLE) (fun a b c h h' => TransCmp.isLE_trans h h')
    (fun a b => ?_) l r hl hr
  rw [@OrientedCmp.eq_swap _ cmp _ b]
  cases cmp a b <;> rfl

/-- **A merge keeps the order of what is level.** -/
theorem merged_level [TransCmp cmp] (x : α) : ∀ (l r : List α), l.Pairwise (fun a b => (cmp a b).isLE) →
    (merged cmp l r).filter (fun y => decide (cmp x y = .eq)) = (l ++ r).filter (fun y => decide (cmp x y = .eq))
  | [], r, _ => by rw [merged, nil_merge, nil_append]
  | l, [], _ => by rw [merged, List.merge_right, append_nil]
  | a :: l, b :: r, hl => by
    rw [merged, cons_merge_cons]
    by_cases hab : (cmp a b).isLE
    · rw [if_pos hab, List.cons_append, filter_cons, filter_cons]
      rw [show l.merge (b :: r) _ = merged cmp l (b :: r) from rfl, merged_level x l (b :: r) hl.of_cons]
    · rw [if_neg hab]
      rw [show (a :: l).merge r _ = merged cmp (a :: l) r from rfl, filter_cons, merged_level x (a :: l) r hl]
      by_cases hxb : cmp x b = .eq
      · -- what the left run has left is above `b`, so none of it is level
        have hba : cmp b a = .lt := by
          rw [@OrientedCmp.eq_swap _ cmp _ b]
          cases hc : cmp a b with
          | lt | eq => rw [hc] at hab; exact absurd rfl hab
          | gt => rfl
        have hxa : cmp x a = .lt := TransCmp.lt_of_eq_of_lt hxb hba
        have hnone : (a :: l).filter (fun y => decide (cmp x y = .eq)) = [] := by
          refine List.filter_eq_nil_iff.2 (fun y hy => ?_)
          have hxy : cmp x y = .lt := by
            rcases List.mem_cons.1 hy with rfl | hy
            · exact hxa
            · exact TransCmp.lt_of_lt_of_isLE hxa (List.rel_of_pairwise_cons hl hy)
          rw [hxy]
          decide
        rw [filter_append, filter_append, hnone, nil_append, nil_append, filter_cons]
      · rw [if_neg (by simpa using hxb), filter_append, filter_append, filter_cons (x := b),
          if_neg (by simpa using hxb)]

/-! ## Passes -/

/-- Every run of a width is sorted. -/
def Runs (cmp : α → α → Ordering) (width : Nat) (l : List α) : Prop :=
  ∀ k, ((l.drop (k * width)).take width).Pairwise (fun a b => (cmp a b).isLE)

theorem mergePass_step {width : Nat} (hw : 0 < width) {l : List α} (hl : l ≠ []) : mergePass cmp width l =
    merged cmp (l.take width) ((l.drop width).take width) ++ mergePass cmp width (l.drop (2 * width)) := by
  rw [mergePass, if_pos ⟨hw, hl⟩]

theorem mergePass_nil (width : Nat) : mergePass cmp width ([] : List α) = [] := by
  rw [mergePass, if_neg (fun h => h.2 rfl)]

theorem two_runs (width : Nat) (l : List α) :
    l.take width ++ ((l.drop width).take width ++ l.drop (2 * width)) = l := by
  rw [show 2 * width = width + width from Nat.two_mul width, ← drop_drop, List.take_append_drop,
    List.take_append_drop]

theorem mergePass_perm {width : Nat} (hw : 0 < width) : ∀ l : List α, (mergePass cmp width l).Perm l := by
  intro l
  induction h : l.length using Nat.strong_induction_on generalizing l with
  | _ n ih =>
    by_cases hl : l = []
    · rw [hl, mergePass_nil]
    · have hpos := length_pos_iff.2 hl
      have hrest := ih (l.drop (2 * width)).length (by rw [length_drop]; omega) _ rfl
      rw [mergePass_step hw hl]
      refine ((merged_perm _ _).append hrest).trans (List.Perm.of_eq ?_)
      rw [List.append_assoc, two_runs]

theorem mergePass_runs [TransCmp cmp] {width : Nat} (hw : 0 < width) : ∀ l : List α, Runs cmp width l →
    Runs cmp (2 * width) (mergePass cmp width l) := by
  intro l
  induction h : l.length using Nat.strong_induction_on generalizing l with
  | _ n ih =>
    intro hr
    by_cases hl : l = []
    · intro k
      rw [hl, mergePass_nil, List.drop_nil, List.take_nil]
      exact List.Pairwise.nil
    have hpos := length_pos_iff.2 hl
    have hfirst : (l.take width).Pairwise (fun a b => (cmp a b).isLE) := by
      have := hr 0
      rwa [Nat.zero_mul, drop_zero] at this
    have hsecond : ((l.drop width).take width).Pairwise (fun a b => (cmp a b).isLE) := by
      have := hr 1
      rwa [Nat.one_mul] at this
    have hrest : Runs cmp width (l.drop (2 * width)) := by
      intro k
      have := hr (2 + k)
      rwa [Nat.add_mul, ← drop_drop] at this
    have hruns := ih (l.drop (2 * width)).length (by rw [length_drop]; omega) _ rfl hrest
    have hlen : (merged cmp (l.take width) ((l.drop width).take width)).length ≤ 2 * width := by
      rw [merged_length, length_take, length_take]
      omega
    rw [mergePass_step hw hl]
    by_cases hshort : l.length < 2 * width
    · -- the last two runs: the second is not whole, or there is none
      have hnil : l.drop (2 * width) = [] := List.drop_eq_nil_of_le hshort.le
      rw [hnil, mergePass_nil, append_nil]
      intro k
      exact (merged_sorted hfirst hsecond).sublist ((List.take_sublist _ _).trans (List.drop_sublist _ _))
    · have hfull : (merged cmp (l.take width) ((l.drop width).take width)).length = 2 * width := by
        rw [merged_length, length_take, length_take, length_drop]
        omega
      intro k
      rcases k with _ | k
      · rw [Nat.zero_mul, drop_zero, List.take_append_of_le_length hfull.ge, List.take_of_length_le hlen]
        exact merged_sorted hfirst hsecond
      · rw [Nat.add_mul, Nat.one_mul, Nat.add_comm, ← drop_drop, List.drop_append_of_le_length hfull.ge,
          List.drop_of_length_le hlen, nil_append]
        exact hruns k

theorem mergePass_level [TransCmp cmp] {width : Nat} (hw : 0 < width) (x : α) : ∀ l : List α, Runs cmp width l →
    (mergePass cmp width l).filter (fun y => decide (cmp x y = .eq)) = l.filter (fun y => decide (cmp x y = .eq)) := by
  intro l
  induction h : l.length using Nat.strong_induction_on generalizing l with
  | _ n ih =>
    intro hr
    by_cases hl : l = []
    · rw [hl, mergePass_nil]
    have hpos := length_pos_iff.2 hl
    have hfirst : (l.take width).Pairwise (fun a b => (cmp a b).isLE) := by
      have := hr 0
      rwa [Nat.zero_mul, drop_zero] at this
    have hrest : Runs cmp width (l.drop (2 * width)) := by
      intro k
      have := hr (2 + k)
      rwa [Nat.add_mul, ← drop_drop] at this
    have hsame := ih (l.drop (2 * width)).length (by rw [length_drop]; omega) _ rfl hrest
    rw [mergePass_step hw hl, filter_append, hsame, merged_level x _ _ hfirst, ← filter_append,
      List.append_assoc, two_runs]

/-! ## The sort -/

theorem mergePasses_spec [TransCmp cmp] {l : List α} {count width : Nat} (hw : 0 < width) (hc : l.length = count)
    (hr : Runs cmp width l) : StableSorted cmp l (mergePasses cmp count width l) := by
  rw [mergePasses]
  by_cases hlt : width < count
  · rw [if_pos ⟨hw, hlt⟩]
    have hp := @mergePass_perm _ cmp _ hw l
    have hruns := mergePass_runs hw l hr
    rw [Nat.mul_comm] at hruns
    have hrest := @mergePasses_spec _ _ _ (width * 2) (by omega) (hp.length_eq.trans hc) hruns
    exact ⟨hrest.perm.trans hp, hrest.sorted, fun x => (hrest.level x).trans (mergePass_level hw x l hr)⟩
  · rw [if_neg (fun h => hlt h.2)]
    refine ⟨List.Perm.refl l, ?_, fun _ => rfl⟩
    have := hr 0
    rwa [Nat.zero_mul, drop_zero, List.take_of_length_le (by omega)] at this
termination_by count - width

/-- **A bottom-up merge sort is stable.** -/
theorem bottomUp_spec [TransCmp cmp] (l : List α) : StableSorted cmp l (bottomUp cmp l) := by
  refine mergePasses_spec Nat.one_pos rfl (fun k => ?_)
  rcases hd : l.drop (k * 1) with _ | ⟨a, t⟩
  · exact List.Pairwise.nil
  · exact List.pairwise_singleton _ _

theorem bottomUp_pair (a b : α) : bottomUp cmp [a, b] = if (cmp a b).isLE then [a, b] else [b, a] := by
  have hpass : mergePass cmp 1 [a, b] = if (cmp a b).isLE then [a, b] else [b, a] := by
    rw [mergePass_step Nat.one_pos (List.cons_ne_nil _ _)]
    change merged cmp [a] [b] ++ mergePass cmp 1 [] = _
    rw [mergePass_nil, append_nil, merged, cons_merge_cons, nil_merge, List.merge_right]
  change mergePasses cmp 2 1 [a, b] = _
  rw [mergePasses, if_pos (by decide), mergePasses, if_neg (by decide), hpass]

/-! ## Comparisons that agree on what is sorted -/

section Congr

variable {cmp' : α → α → Ordering}

theorem merged_congr {l r : List α} (h : ∀ a ∈ l, ∀ b ∈ r, cmp a b = cmp' a b) : merged cmp l r = merged cmp' l r := by
  rw [merged, merged]
  fun_induction List.merge l r (fun a b => (cmp a b).isLE) with
  | case1 r => rw [nil_merge]
  | case2 l => rw [List.merge_right]
  | case3 a l b r hab ih =>
    rw [cons_merge_cons, ← h a (mem_cons_self ..) b (mem_cons_self ..), if_pos hab,
      ih (fun c hc d hd => h c (List.mem_cons_of_mem _ hc) d hd)]
  | case4 a l b r hab ih =>
    rw [cons_merge_cons, ← h a (mem_cons_self ..) b (mem_cons_self ..), if_neg hab,
      ih (fun c hc d hd => h c hc d (List.mem_cons_of_mem _ hd))]

theorem mergePass_congr (width : Nat) : ∀ l : List α, (∀ a ∈ l, ∀ b ∈ l, cmp a b = cmp' a b) →
    mergePass cmp width l = mergePass cmp' width l := by
  intro l
  induction h : l.length using Nat.strong_induction_on generalizing l with
  | _ n ih =>
    intro hsame
    by_cases hc : 0 < width ∧ l ≠ []
    · have hpos := length_pos_iff.2 hc.2
      rw [mergePass_step hc.1 hc.2, mergePass_step hc.1 hc.2,
        ih (l.drop (2 * width)).length (by rw [length_drop]; omega) _ rfl
          (fun a ha b hb => hsame a (List.mem_of_mem_drop ha) b (List.mem_of_mem_drop hb)),
        merged_congr (fun a ha b hb => hsame a (List.mem_of_mem_take ha) b
          (List.mem_of_mem_drop (List.mem_of_mem_take hb)))]
    · unfold mergePass
      rw [if_neg hc, if_neg hc]

theorem mergePasses_congr {l : List α} {count width : Nat} (h : ∀ a ∈ l, ∀ b ∈ l, cmp a b = cmp' a b) :
    mergePasses cmp count width l = mergePasses cmp' count width l := by
  unfold mergePasses
  by_cases hc : 0 < width ∧ width < count
  · have hmem : ∀ a, a ∈ mergePass cmp width l → a ∈ l := fun a ha => (mergePass_perm hc.1 l).mem_iff.1 ha
    rw [if_pos hc, if_pos hc, mergePasses_congr (fun a ha b hb => h a (hmem a ha) b (hmem b hb)),
      mergePass_congr width l h]
  · rw [if_neg hc, if_neg hc]
termination_by count - width

theorem bottomUp_congr {l : List α} (h : ∀ a ∈ l, ∀ b ∈ l, cmp a b = cmp' a b) : bottomUp cmp l = bottomUp cmp' l :=
  mergePasses_congr h

end Congr

end MergePasses
end Gbasic
