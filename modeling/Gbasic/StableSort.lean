import Mathlib.Data.List.Sort
import Mathlib.Order.Defs.LinearOrder
/-!
# StableSort — stable sorts, and merges of sorted lists (library)

A stable sort has its keys in order and, of each key, the entries it was given, as they stood.  A sort by key and then
by a number that ascends is one, and so is a merge that takes the least head in turn, of level heads the earliest
list's.  Nothing here names a repository.
-/
namespace Gbasic
namespace StableSort

variable {α β : Type} [LinearOrder β] (key : α → β)

variable {ls : List (List α)} {i : Nat}

def SameByKey (l m : List α) : Prop := ∀ k, l.filter (fun a => decide (key a = k)) = m.filter
    (fun a => decide (key a = k))

def Ascends (l : List α) : Prop := l.Pairwise (fun a b => key a ≤ key b)

/-- `out` is `l` sorted by key, entries of one key in the order they had. -/
structure IsStableSort (l out : List α) : Prop where
  ascends : Ascends key out
  same : SameByKey key out l

variable {key} {l m n : List α}

theorem SameByKey.refl (l : List α) : SameByKey key l l := fun _ => rfl

theorem SameByKey.trans (h : SameByKey key l m) (h' : SameByKey key m n) : SameByKey key l n :=
    fun k => (h k).trans (h' k)

theorem SameByKey.append {l' m' : List α} (h : SameByKey key l m) (h' : SameByKey key l' m') :
    SameByKey key (l ++ l') (m ++ m') := by
  intro k
  rw [List.filter_append, List.filter_append, h k, h' k]

theorem SameByKey.mem (h : SameByKey key l m) {a : α} : a ∈ l ↔ a ∈ m := by
  have hk : ∀ l : List α, a ∈ l ↔ a ∈ l.filter (fun b => decide (key b = key a)) := by
    intro l
    rw [List.mem_filter]
    exact ⟨fun ha => ⟨ha, decide_eq_true rfl⟩, fun ha => ha.1⟩
  rw [hk l, hk m, h (key a)]

theorem perm_of_sameByKey (h : SameByKey key l m) : l.Perm m := by
  classical
  refine List.perm_iff_count.2 (fun a => ?_)
  have hk : ∀ l : List α, l.count a = (l.filter (fun b => decide (key b = key a))).count a := by
    intro l
    rw [List.count_filter]
    exact decide_eq_true rfl
  rw [hk l, hk m, h (key a)]

/-! ## Sorting by key and place -/

/-- **A sort by key, and then by a number that ascends, is stable.** -/
theorem isStableSort_of_tagged {seq : α → Nat} {out : List α} (hperm : out.Perm l)
    (hin : l.Pairwise (fun a b => seq a < seq b))
    (hout : out.Pairwise (fun a b => key a < key b ∨ key a = key b ∧ seq a < seq b)) : IsStableSort key l out where
  ascends := hout.imp (fun h => h.elim le_of_lt (fun h => h.1.le))
  same := by
    intro k
    have hseq : (out.filter (fun a => decide (key a = k))).Pairwise (fun a b => seq a < seq b) := by
      rw [List.pairwise_filter]
      refine hout.imp (fun {a b} h ha hb => ?_)
      rcases h with h | h
      · rw [of_decide_eq_true ha, of_decide_eq_true hb] at h
        exact absurd h (lt_irrefl k)
      · exact h.2
    have hno : ∀ a b, a ∈ out.filter (fun a => decide (key a = k)) → b ∈ l.filter (fun a => decide (key a = k)) →
        seq a < seq b → seq b < seq a → a = b := by
      intro a b _ _ hab hba
      omega
    exact List.Perm.eq_of_pairwise hno hseq (hin.filter _) (hperm.filter _)

/-! ## Merging -/

structure Least (key : α → β) (ls : List (List α)) (i : Nat) (e : α) (t : List α) : Prop where
  head : ls[i]? = some (e :: t)
  least : ∀ j a u, ls[j]? = some (a :: u) → key e ≤ key a ∧ (key a = key e → i ≤ j)

inductive Merged (key : α → β) : List (List α) → List α → Prop where
  | nil {ls : List (List α)} (h : ∀ l ∈ ls, l = []) : Merged key ls []
  | cons {ls : List (List α)} {i : Nat} {e : α} {t out : List α} (h : Least key ls i e t)
      (h' : Merged key (ls.set i t) out) : Merged key ls (e :: out)

theorem Ascends.le_of_head {a x : α} {u : List α} {k : β} (h : Ascends key (a :: u)) (hk : k ≤ key a)
    (hx : x ∈ a :: u) :
    k ≤ key x := by
  rcases List.mem_cons.1 hx with rfl | hx
  · exact hk
  · exact hk.trans (List.rel_of_pairwise_cons h hx)

theorem Least.le {e : α} {t : List α} (h : Least key ls i e t) (hls : ∀ l ∈ ls, Ascends key l) :
    ∀ x ∈ ls.flatten, key e ≤ key x := by
  intro x hx
  obtain ⟨l, hl, hx⟩ := List.mem_flatten.1 hx
  obtain ⟨j, hj⟩ := List.mem_iff_getElem?.1 hl
  cases l with
  | nil => cases hx
  | cons a u => exact (hls _ hl).le_of_head (h.least j a u hj).1 hx

theorem Least.none_before {e : α} {t : List α} (h : Least key ls i e t) (hls : ∀ l ∈ ls, Ascends key l) :
    (ls.take i).flatten.filter (fun a => decide (key a = key e)) = [] := by
  rw [List.filter_eq_nil_iff]
  intro x hx hk
  obtain ⟨l, hl, hx⟩ := List.mem_flatten.1 hx
  obtain ⟨j, hj⟩ := List.mem_iff_getElem?.1 hl
  have hji : j < i := by
    have := (List.getElem?_eq_some_iff.1 hj).1
    rw [List.length_take] at this
    omega
  rw [List.getElem?_take_of_lt hji] at hj
  have hl' := List.mem_of_getElem? hj
  cases l with
  | nil => cases hx
  | cons a u =>
    obtain ⟨hle, hlevel⟩ := h.least j a u hj
    have hax : key a ≤ key x := (hls _ hl').le_of_head le_rfl hx
    rw [of_decide_eq_true hk] at hax
    have := hlevel (le_antisymm hax hle)
    omega

theorem flatten_split {l : List α} (h : ls[i]? = some l) (l' : List α) :
    ls.flatten = (ls.take i).flatten ++ (l ++ (ls.drop (i + 1)).flatten) ∧
      (ls.set i l').flatten = (ls.take i).flatten ++ (l' ++ (ls.drop (i + 1)).flatten) := by
  obtain ⟨hi, rfl⟩ := List.getElem?_eq_some_iff.1 h
  constructor
  · conv_lhs => rw [← List.take_append_drop i ls, List.drop_eq_getElem_cons hi]
    rw [List.flatten_append, List.flatten_cons]
  · rw [List.set_eq_take_append_cons_drop, if_pos hi, List.flatten_append, List.flatten_cons]

/-- **A head taken first** stands in its key's order. -/
theorem Least.same {e : α} {t : List α} (h : Least key ls i e t) (hls : ∀ l ∈ ls, Ascends key l) :
    SameByKey key (e :: (ls.set i t).flatten) ls.flatten := by
  intro k
  obtain ⟨hold, hnew⟩ := flatten_split h.head t
  rw [hold, hnew, List.cons_append, List.filter_cons, List.filter_append, List.filter_append, List.filter_append,
    List.filter_cons, List.filter_append]
  by_cases hk : key e = k
  · subst hk
    rw [h.none_before hls, if_pos (decide_eq_true rfl), if_pos (decide_eq_true rfl)]
    rfl
  · rw [if_neg (by simpa using hk), if_neg (by simpa using hk)]

/-- **A merge of lists in order is their stable sort.** -/
theorem Merged.isStableSort {out : List α} (h : Merged key ls out) :
    (∀ l ∈ ls, Ascends key l) → IsStableSort key ls.flatten out := by
  induction h with
  | nil h =>
    intro _
    rw [List.flatten_eq_nil_iff.2 h]
    exact ⟨List.Pairwise.nil, SameByKey.refl []⟩
  | @cons ls i e t out h _ ih =>
    intro hls
    have hmem := List.mem_of_getElem? h.head
    obtain ⟨hasc, hsame⟩ := ih (by
      intro l hl
      rcases List.mem_or_eq_of_mem_set hl with hl | rfl
      · exact hls l hl
      · exact (List.pairwise_cons.1 (hls _ hmem)).2)
    have hall : SameByKey key (e :: out) ls.flatten := by
      refine SameByKey.trans ?_ (h.same hls)
      exact SameByKey.append (SameByKey.refl [e]) hsame
    refine ⟨List.pairwise_cons.2 ⟨fun x hx => ?_, hasc⟩, hall⟩
    exact h.le hls x (hall.mem.1 (List.mem_cons_of_mem e hx))

end StableSort
end Gbasic
