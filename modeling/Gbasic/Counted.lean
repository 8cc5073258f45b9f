import Mathlib.Algebra.BigOperators.Group.Finset.Basic
import Mathlib.Algebra.Order.BigOperators.Group.Finset
import Mathlib.Data.List.Count
import Mathlib.Logic.Relation
/-!
# Counted — a heap of blocks with reference counts

A block has a count and contents, and the contents hold pointers (`kids`).  The counts are exact over a list of roots
when each is the number of roots and of pointers in blocks that name it; a store of a pointer that is still to come, or
one that is already gone, is a root too many or one owed.  A way down through blocks counted once is private: nothing
outside it points into it.
-/
namespace Counted

open Finset (mem_range sum_congr add_sum_erase mem_filter)
open Relation (ReflTransGen TransGen)
open List (count_pos_iff count_nil count_append count_cons)

variable {R N D : List Nat} {a b c : Nat} {o : Option Nat}

class Pointing (β : Type) where
  kids : β → List Nat

export Pointing (kids)

structure Heap (β : Type) where
  block : Nat → Option (Nat × β)
  next : Nat

variable {β : Type}

namespace Heap

variable {h h' : Heap β} {x : β}

def obj (h : Heap β) (a : Nat) : Option β := (h.block a).map Prod.snd

def refs (h : Heap β) (a : Nat) : Nat := ((h.block a).map Prod.fst).getD 0

def put (h : Heap β) (a : Nat) (b : Option (Nat × β)) : Heap β := { h with block := Function.update h.block a b }

def alloc (h : Heap β) (x : β) : Heap β := ⟨Function.update h.block h.next (some (1, x)), h.next + 1⟩

def retain (h : Heap β) (a : Nat) : Heap β :=
  match h.block a with
  | some (n, x) => h.put a (some (n + 1, x))
  | none => h

def retainAll (h : Heap β) (l : List Nat) : Heap β := l.foldl retain h

def drop (h : Heap β) (a : Nat) : Heap β :=
  match h.block a with
  | some (n, x) => h.put a (some (n - 1, x))
  | none => h

/-- Other contents under the same count. -/
def store (h : Heap β) (a : Nat) (x : β) : Heap β :=
  match h.block a with
  | some (n, _) => h.put a (some (n, x))
  | none => h

/-! ## What an operation leaves -/

@[simp] theorem put_next (h : Heap β) (a : Nat) (b : Option (Nat × β)) : (h.put a b).next = h.next := rfl

theorem put_block (h : Heap β) (a : Nat) (b : Option (Nat × β)) (c : Nat) :
    (h.put a b).block c = if c = a then b else h.block c := by
  simp [put, Function.update_apply]

theorem obj_put (h : Heap β) (a : Nat) (b : Option (Nat × β)) (c : Nat) :
    (h.put a b).obj c = if c = a then b.map Prod.snd else h.obj c := by
  unfold obj
  rw [put_block]
  split <;> rfl

theorem refs_put (h : Heap β) (a : Nat) (b : Option (Nat × β)) (c : Nat) :
    (h.put a b).refs c = if c = a then (b.map Prod.fst).getD 0 else h.refs c := by
  unfold refs
  rw [put_block]
  split <;> rfl

theorem obj_some (hx : h.obj a = some x) : ∃ n, h.block a = some (n, x) := by
  unfold obj at hx
  cases hb : h.block a with
  | none => simp [hb] at hx
  | some p =>
    simp only [hb, Option.map_some, Option.some.injEq] at hx
    exact ⟨p.1, by rw [← hx]⟩

theorem refs_of_block {n : Nat} (hb : h.block a = some (n, x)) : h.refs a = n := by
  simp [refs, hb]

theorem obj_of_block {n : Nat} (hb : h.block a = some (n, x)) : h.obj a = some x := by
  simp [obj, hb]

theorem refs_of_dead (ha : h.obj a = none) : h.refs a = 0 := by
  unfold obj at ha
  unfold refs
  cases hb : h.block a with
  | none => rfl
  | some p => simp [hb] at ha

theorem obj_of_refs (ha : 0 < h.refs a) : ∃ x, h.obj a = some x := by
  cases hx : h.obj a with
  | none => rw [refs_of_dead hx] at ha; omega
  | some x => exact ⟨x, rfl⟩

@[simp] theorem retain_next (h : Heap β) (a : Nat) : (h.retain a).next = h.next := by
  unfold retain
  split <;> rfl

@[simp] theorem drop_next (h : Heap β) (a : Nat) : (h.drop a).next = h.next := by
  unfold drop
  split <;> rfl

@[simp] theorem store_next (h : Heap β) (a : Nat) (x : β) : (h.store a x).next = h.next := by
  unfold store
  split <;> rfl

@[simp] theorem retain_obj (h : Heap β) (a c : Nat) : (h.retain a).obj c = h.obj c := by
  unfold retain
  split
  · next n x hb =>
    rw [obj_put]
    split
    · next hc => rw [hc, obj_of_block hb]; rfl
    · rfl
  · rfl

@[simp] theorem drop_obj (h : Heap β) (a c : Nat) : (h.drop a).obj c = h.obj c := by
  unfold drop
  split
  · next n x hb =>
    rw [obj_put]
    split
    · next hc => rw [hc, obj_of_block hb]; rfl
    · rfl
  · rfl

theorem store_obj (h : Heap β) (a : Nat) (x : β) (c : Nat) :
    (h.store a x).obj c = if c = a then (h.obj a).map (fun _ => x) else h.obj c := by
  unfold store
  split
  · next n y hb =>
    rw [obj_put, obj_of_block hb]
    rfl
  · next hb =>
    split
    · next hc => rw [hc]; simp [obj, hb]
    · rfl

@[simp] theorem store_refs (h : Heap β) (a : Nat) (x : β) (c : Nat) : (h.store a x).refs c = h.refs c := by
  unfold store
  split
  · next n y hb =>
    rw [refs_put]
    split
    · next hc => rw [hc, refs_of_block hb]; rfl
    · rfl
  · rfl

theorem retain_refs (hx : h.obj a = some x) (c : Nat) : (h.retain a).refs c = h.refs c + if c = a then 1 else 0 := by
  obtain ⟨n, hb⟩ := obj_some hx
  unfold retain
  rw [hb]
  rw [refs_put]
  split
  · next hc => rw [hc, refs_of_block hb]; rfl
  · rfl

theorem drop_refs (hx : h.obj a = some x) (c : Nat) : (h.drop a).refs c = h.refs c - if c = a then 1 else 0 := by
  obtain ⟨n, hb⟩ := obj_some hx
  unfold drop
  rw [hb]
  rw [refs_put]
  split
  · next hc => rw [hc, refs_of_block hb]; rfl
  · rfl

@[simp] theorem retainAll_cons (h : Heap β) (a : Nat) (l : List Nat) :
    h.retainAll (a :: l) = (h.retain a).retainAll l := rfl

@[simp] theorem retainAll_next (l : List Nat) : ∀ h : Heap β, (h.retainAll l).next = h.next := by
  induction l with
  | nil => intro h; rfl
  | cons a l ih => intro h; rw [retainAll_cons, ih, retain_next]

@[simp] theorem retainAll_obj (l : List Nat) : ∀ (h : Heap β) (c : Nat), (h.retainAll l).obj c = h.obj c := by
  induction l with
  | nil => intro h c; rfl
  | cons a l ih => intro h c; rw [retainAll_cons, ih, retain_obj]

theorem le_retain_refs (h : Heap β) (a c : Nat) : h.refs c ≤ (h.retain a).refs c := by
  cases hx : h.obj a with
  | none =>
    have hb : h.block a = none := by simpa [obj] using hx
    unfold retain
    rw [hb]
  | some x =>
    rw [retain_refs hx]
    omega

theorem le_retainAll_refs (l : List Nat) : ∀ (h : Heap β) (c : Nat), h.refs c ≤ (h.retainAll l).refs c := by
  induction l with
  | nil => intro h c; exact le_rfl
  | cons a l ih => intro h c; exact (le_retain_refs h a c).trans (ih _ c)

theorem alloc_block (h : Heap β) (x : β) (c : Nat) :
    (h.alloc x).block c = if c = h.next then some (1, x) else h.block c := by
  simp [alloc, Function.update_apply]

@[simp] theorem alloc_next (h : Heap β) (x : β) : (h.alloc x).next = h.next + 1 := rfl

theorem alloc_obj (h : Heap β) (x : β) (c : Nat) :
    (h.alloc x).obj c = if c = h.next then some x else h.obj c := by
  unfold obj
  rw [alloc_block]
  split <;> rfl

theorem alloc_refs (h : Heap β) (x : β) (c : Nat) :
    (h.alloc x).refs c = if c = h.next then 1 else h.refs c := by
  unfold refs
  rw [alloc_block]
  split <;> rfl

section Pointing

variable [Pointing β]

/-- References dropped one after the other, a block that loses its last one dropping those it holds: nothing where
there is no block to drop one from. -/
def release : Nat → Heap β → List Nat → Option (Heap β)
  | _, h, [] => some h
  | 0, _, _ :: _ => none
  | n + 1, h, a :: work =>
    match h.block a with
    | some (1, x) => release n (h.put a none) (kids x ++ work)
    | some (_ + 2, _) => release n (h.drop a) work
    | _ => none

def weight (h : Heap β) : Nat := ∑ a ∈ Finset.range h.next, h.refs a

def releaseAll (h : Heap β) (work : List Nat) : Option (Heap β) := release h.weight h work


def pointed (h : Heap β) (c : Nat) : Nat :=
  ∑ b ∈ Finset.range h.next, ((h.obj b).elim 0 (fun x => (kids x).count c))

/-- **Every count is exact** over the roots `R`, those of `N` being owed. -/
structure Exact (h : Heap β) (R N : List Nat) : Prop where
  bounded : ∀ a, h.next ≤ a → h.block a = none
  exact : ∀ a, h.refs a + N.count a = R.count a + h.pointed a

theorem Exact.congr {R' N' : List Nat} (he : Exact h R N) (hR : ∀ a, R.count a + N'.count a = R'.count a + N.count a) :
    Exact h R' N' :=
  ⟨he.bounded, fun a => by have h1 := he.exact a; have h2 := hR a; omega⟩

theorem Exact.perm {R' : List Nat} (he : Exact h R N) (hR : R.Perm R') : Exact h R' N :=
  he.congr (fun a => by rw [hR.count_eq])

theorem Exact.live_lt (he : Exact h R N) (hx : h.obj a = some x) : a < h.next := by
  by_contra hlt
  obtain ⟨n, hb⟩ := obj_some hx
  rw [he.bounded a (Nat.le_of_not_lt hlt)] at hb
  cases hb

theorem count_le_pointed (hb : b < h.next) (hx : h.obj b = some x) : (kids x).count c ≤ h.pointed c := by
  have hle : ((h.obj b).elim 0 (fun x => (kids x).count c)) ≤ h.pointed c :=
    Finset.single_le_sum (f := fun b => (h.obj b).elim 0 (fun x => (kids x).count c)) (fun _ _ => Nat.zero_le _)
      (mem_range.mpr hb)
  rwa [hx] at hle

theorem Exact.refs_pos (he : Exact h R []) (hc : c ∈ R) : 0 < h.refs c := by
  have h2 := count_pos_iff.mpr hc
  have h3 := he.exact c
  rw [count_nil] at h3
  omega

theorem Exact.refs_pos_kid (he : Exact h R []) (hx : h.obj b = some x) (hc : c ∈ kids x) : 0 < h.refs c := by
  have h1 := count_le_pointed (c := c) (he.live_lt hx) hx
  have h2 := count_pos_iff.mpr hc
  have h3 := he.exact c
  rw [count_nil] at h3
  omega

theorem Exact.live_kid (he : Exact h R []) (hx : h.obj b = some x) (hc : c ∈ kids x) : ∃ y, h.obj c = some y :=
  obj_of_refs (he.refs_pos_kid hx hc)

theorem Exact.live_root (he : Exact h R []) (hc : c ∈ R) : ∃ y, h.obj c = some y :=
  obj_of_refs (he.refs_pos hc)

theorem Exact.owe (he : Exact h R N) (l : List Nat) : Exact h (l ++ R) (l ++ N) :=
  he.congr (fun a => by simp only [count_append]; omega)

theorem Exact.pay {l : List Nat} (he : Exact h (l ++ R) (l ++ N)) : Exact h R N :=
  he.congr (fun a => by simp only [count_append]; omega)

/-! ## An operation and the counts -/

theorem pointed_congr (hn : h'.next = h.next) (ho : ∀ b, h'.obj b = h.obj b) (c : Nat) :
    h'.pointed c = h.pointed c := by
  unfold pointed
  rw [hn]
  exact sum_congr rfl (fun b _ => by rw [ho])

theorem pointed_change (hn : h'.next = h.next) (ha : a < h.next) (ho : ∀ b, b ≠ a → h'.obj b = h.obj b) (c : Nat) :
    h'.pointed c + (h.obj a).elim 0 (fun x => (kids x).count c) =
      h.pointed c + (h'.obj a).elim 0 (fun x => (kids x).count c) := by
  unfold pointed
  rw [hn, ← add_sum_erase _ _ (mem_range.mpr ha),
    ← add_sum_erase (Finset.range h.next) (fun b => (h.obj b).elim 0 _) (mem_range.mpr ha)]
  have hs : ∑ b ∈ (Finset.range h.next).erase a, (h'.obj b).elim 0 (fun x => (kids x).count c) =
      ∑ b ∈ (Finset.range h.next).erase a, (h.obj b).elim 0 (fun x => (kids x).count c) :=
    sum_congr rfl (fun b hb => by rw [ho b (Finset.ne_of_mem_erase hb)])
  rw [hs]
  omega

theorem Exact.alloc (he : Exact h (kids x ++ R) N) : Exact (h.alloc x) (h.next :: R) N := by
  have hdead : h.obj h.next = none := by
    unfold obj
    rw [he.bounded _ le_rfl]
    rfl
  constructor
  · intro a ha
    rw [alloc_next] at ha
    rw [alloc_block, if_neg (by omega), he.bounded a (by omega)]
  · intro a
    have h1 := he.exact a
    have h2 : (h.alloc x).pointed a = h.pointed a + (kids x).count a := by
      unfold pointed
      rw [alloc_next, Finset.sum_range_succ]
      congr 1
      · refine sum_congr rfl (fun b hb => ?_)
        rw [alloc_obj, if_neg (by have := mem_range.mp hb; omega)]
      · rw [alloc_obj, if_pos rfl]
        rfl
    rw [count_append] at h1
    rw [h2, alloc_refs, count_cons]
    by_cases ha : a = h.next
    · subst ha
      rw [refs_of_dead hdead] at h1
      simp only [if_true, beq_self_eq_true]
      omega
    · have hne : (h.next == a) = false := by simpa using Ne.symm ha
      simp only [if_neg ha, hne, Bool.false_eq_true, if_false]
      omega

theorem Exact.retain (he : Exact h R N) (hx : h.obj a = some x) : Exact (h.retain a) (a :: R) N := by
  constructor
  · intro c hc
    rw [retain_next] at hc
    have hlt := he.live_lt hx
    obtain ⟨n, hb⟩ := obj_some hx
    unfold Heap.retain
    rw [hb]
    rw [put_block, if_neg (by omega), he.bounded c hc]
  · intro c
    have h1 := he.exact c
    rw [retain_refs hx, pointed_congr (retain_next h a) (retain_obj h a), count_cons]
    by_cases hc : c = a
    · subst hc
      simp only [if_true, beq_self_eq_true]
      omega
    · have hne : (a == c) = false := by simpa using Ne.symm hc
      simp only [if_neg hc, hne, Bool.false_eq_true, if_false]
      omega

theorem Exact.retainAll {N : List Nat} : ∀ (l : List Nat) {h : Heap β} {R : List Nat} (_ : Exact h R N)
    (_ : ∀ a ∈ l, ∃ x, h.obj a = some x), Exact (h.retainAll l) (l ++ R) N
  | [], _, _, he, _ => he
  | a :: l, h, R, he, hl => by
    obtain ⟨x, hx⟩ := hl a (List.mem_cons_self ..)
    have h1 := Exact.retainAll l (he.retain hx) (fun c hc => by
      rw [retain_obj]
      exact hl c (List.mem_cons_of_mem _ hc))
    exact h1.perm List.perm_middle

theorem Exact.drop (he : Exact h (a :: R) N) (hx : h.obj a = some x) (hr : 0 < h.refs a) : Exact (h.drop a) R N := by
  constructor
  · intro c hc
    rw [drop_next] at hc
    have hlt := he.live_lt hx
    obtain ⟨n, hb⟩ := obj_some hx
    unfold Heap.drop
    rw [hb]
    rw [put_block, if_neg (by omega), he.bounded c hc]
  · intro c
    have h1 := he.exact c
    rw [count_cons] at h1
    rw [drop_refs hx, pointed_congr (drop_next h a) (drop_obj h a)]
    by_cases hc : c = a
    · subst hc
      simp only [if_true, beq_self_eq_true] at h1 ⊢
      omega
    · have hne : (a == c) = false := by simpa using Ne.symm hc
      simp only [if_neg hc, hne, Bool.false_eq_true, if_false] at h1 ⊢
      omega

/-- Other contents: the roots give the new pointers and get the old ones. -/
theorem Exact.store {y : β} (hy : h.obj a = some y) (he : Exact h (kids x ++ R) N) :
    Exact (h.store a x) (kids y ++ R) N := by
  have hlt := he.live_lt hy
  constructor
  · intro c hc
    rw [store_next] at hc
    obtain ⟨n, hb⟩ := obj_some hy
    unfold Heap.store
    rw [hb]
    rw [put_block, if_neg (by omega), he.bounded c hc]
  · intro c
    have h1 := he.exact c
    have h2 := pointed_change (h := h) (store_next h a x) hlt (fun b hb => by rw [store_obj, if_neg hb]) c
    rw [store_obj, if_pos rfl, hy] at h2
    simp only [Option.elim_some, Option.map_some] at h2
    rw [count_append] at h1 ⊢
    rw [store_refs]
    omega

/-- A block that goes with its last reference gives its pointers to the roots. -/
theorem Exact.remove (hb : h.block a = some (1, x)) (he : Exact h (a :: R) N) :
    Exact (h.put a none) (kids x ++ R) N := by
  have hlt := he.live_lt (obj_of_block hb)
  constructor
  · intro c hc
    rw [put_next] at hc
    rw [put_block, if_neg (by omega), he.bounded c hc]
  · intro c
    have h1 := he.exact c
    have h2 := pointed_change (h := h) (put_next h a none) hlt (fun b hb => by rw [obj_put, if_neg hb]) c
    rw [obj_put, if_pos rfl, obj_of_block hb] at h2
    simp only [Option.elim_some, Option.map_none, Option.elim_none] at h2
    rw [count_cons] at h1
    rw [count_append, refs_put]
    by_cases hc : c = a
    · subst hc
      rw [refs_of_block hb] at h1
      simp only [if_true, beq_self_eq_true, Option.map_none, Option.getD_none] at h1 ⊢
      omega
    · have hne : (a == c) = false := by simpa using Ne.symm hc
      simp only [if_neg hc, hne, Bool.false_eq_true, if_false] at h1 ⊢
      omega

/-! ## Releasing -/

theorem release_next : ∀ (n : Nat) {h h' : Heap β} {work : List Nat}, release n h work = some h' → h'.next = h.next
  | n, h, h', [], hr => by
    rw [release] at hr
    cases hr
    rfl
  | 0, h, h', _ :: _, hr => by
    rw [release] at hr
    cases hr
  | n + 1, h, h', a :: work, hr => by
    rw [release] at hr
    split at hr
    · next x hb => exact (release_next n hr).trans (put_next h a none)
    · next k x hb => exact (release_next n hr).trans (drop_next h a)
    · cases hr

theorem Exact.release {R N : List Nat} : ∀ (n : Nat) {h h' : Heap β} {w : List Nat} (_ : Exact h (w ++ R) N)
    (_ : release n h w = some h'), Exact h' R N
  | n, h, h', [], he, hr => by
    rw [Heap.release] at hr
    cases hr
    exact he
  | 0, h, h', _ :: _, he, hr => by
    rw [Heap.release] at hr
    cases hr
  | n + 1, h, h', a :: w, he, hr => by
    rw [Heap.release] at hr
    split at hr
    · next x hb =>
      refine Exact.release n ?_ hr
      rw [List.append_assoc]
      exact Exact.remove hb he
    · next k x hb =>
      have hx := obj_of_block hb
      refine Exact.release n (Exact.drop he hx ?_) hr
      rw [refs_of_block hb]
      omega
    · cases hr

/-- A block that is left is as it was. -/
theorem release_obj : ∀ (n : Nat) {h h' : Heap β} {work : List Nat} (_ : release n h work = some h') {b : Nat} {x : β},
    h'.obj b = some x → h.obj b = some x
  | n, h, h', [], hr, b, x, hx => by
    rw [release] at hr
    cases hr
    exact hx
  | 0, h, h', _ :: _, hr, b, x, hx => by
    rw [release] at hr
    cases hr
  | n + 1, h, h', a :: work, hr, b, x, hx => by
    rw [release] at hr
    split at hr
    · next y hb =>
      have h1 := release_obj n hr hx
      rw [obj_put] at h1
      split at h1
      · cases h1
      · exact h1
    · next k y hb =>
      have h1 := release_obj n hr hx
      rwa [drop_obj] at h1
    · cases hr

/-- **With exact counts a release comes to an end.** -/
theorem release_some {R : List Nat} : ∀ (n : Nat) {h : Heap β} {w : List Nat} (_ : Exact h (w ++ R) [])
    (_ : h.weight ≤ n), ∃ h', release n h w = some h'
  | n, h, [], _, _ => ⟨h, by rw [release]⟩
  | n, h, a :: w, he, hw => by
    obtain ⟨x, hx⟩ := he.live_root (List.mem_append_left _ (List.mem_cons_self ..))
    have hlt := he.live_lt hx
    have h1 := he.exact a
    rw [count_append, List.count_cons_self, count_nil] at h1
    obtain ⟨k, hb⟩ := obj_some hx
    have hk := refs_of_block hb
    have hsum : ∀ h' : Heap β, h'.next = h.next → (∀ c, h'.refs c = h.refs c - if c = a then 1 else 0) →
        h'.weight + 1 = h.weight := by
      intro h' hn hc
      unfold weight
      rw [hn, ← add_sum_erase _ _ (mem_range.mpr hlt),
        ← add_sum_erase (Finset.range h.next) h.refs (mem_range.mpr hlt)]
      have hs : ∑ b ∈ (Finset.range h.next).erase a, h'.refs b = ∑ b ∈ (Finset.range h.next).erase a, h.refs b :=
        sum_congr rfl (fun b hb => by rw [hc b, if_neg (Finset.ne_of_mem_erase hb)]; rfl)
      rw [hs, hc a, if_pos rfl]
      omega
    match n, k, hb, hk with
    | 0, _, _, _ =>
      have hle : h.refs a ≤ h.weight := Finset.single_le_sum (f := h.refs) (fun _ _ => Nat.zero_le _)
        (mem_range.mpr hlt)
      omega
    | n + 1, 0, _, hk => omega
    | n + 1, 1, hb, hk =>
      have hw' := hsum (h.put a none) rfl (fun c => by
        rw [refs_put]
        split
        · next hc => rw [hc, hk]; rfl
        · rfl)
      obtain ⟨h', hr⟩ := release_some (R := R) n (h := h.put a none) (w := kids x ++ w)
        (by rw [List.append_assoc]; exact Exact.remove hb he) (by omega)
      exact ⟨h', by rw [release, hb]; exact hr⟩
    | n + 1, k + 2, hb, hk =>
      have hw' := hsum (h.drop a) (drop_next h a) (drop_refs hx)
      obtain ⟨h', hr⟩ := release_some (R := R) n (h := h.drop a) (w := w)
        (Exact.drop he hx (by omega)) (by omega)
      exact ⟨h', by rw [release, hb]; exact hr⟩

/-! ## Ways down, cycles -/

def Edge (h : Heap β) (a b : Nat) : Prop := ∃ x, h.obj a = some x ∧ b ∈ kids x

abbrev Reach (h : Heap β) : Nat → Nat → Prop := ReflTransGen h.Edge

/-- No block is reached from itself. -/
def Acyclic (h : Heap β) : Prop := ∀ a, ¬ TransGen h.Edge a a

theorem Acyclic.mono (ha : h.Acyclic) (he : ∀ a b, h'.Edge a b → h.Edge a b) : h'.Acyclic :=
  fun a hc => ha a (TransGen.mono he a a hc)

/-- New pointers out of one block make no cycle where none of them leads back to it. -/
theorem Acyclic.point (ha : h.Acyclic) {o : Nat} {B : List Nat}
    (he : ∀ a b, h'.Edge a b → h.Edge a b ∨ (a = o ∧ b ∈ B)) (hB : ∀ b ∈ B, ¬ h.Reach b o) : h'.Acyclic := by
  have hold : ∀ b ∈ B, ∀ c, h'.Reach b c → h.Reach b c := by
    intro b hb c hc
    induction hc with
    | refl => exact .refl
    | tail _ hcd ih =>
      rcases he _ _ hcd with hcd | ⟨rfl, _⟩
      · exact ih.tail hcd
      · exact absurd ih (hB b hb)
  have hway : ∀ a c, TransGen h'.Edge a c →
      TransGen h.Edge a c ∨ (h'.Reach a o ∧ ∃ b ∈ B, h'.Reach b c) := by
    intro a c hac
    induction hac with
    | single hab =>
      rcases he _ _ hab with hab | ⟨rfl, hb⟩
      · exact Or.inl (.single hab)
      · exact Or.inr ⟨.refl, _, hb, .refl⟩
    | tail hac hcd ih =>
      rcases ih with ih | ⟨hao, b, hb, hbc⟩
      · rcases he _ _ hcd with hcd | ⟨rfl, hd⟩
        · exact Or.inl (ih.tail hcd)
        · exact Or.inr ⟨hac.to_reflTransGen, _, hd, .refl⟩
      · exact Or.inr ⟨hao, b, hb, hbc.tail hcd⟩
  intro a hc
  rcases hway a a hc with hc | ⟨hao, b, hb, hba⟩
  · exact ha a hc
  · exact hB b hb (hold b hb o (hba.trans hao))

structure Builds (h h' : Heap β) : Prop where
  grows : ∀ a x, h.obj a = some x → h'.obj a = some x
  next : h.next ≤ h'.next
  edge : ∀ a b, h'.Edge a b → h.Edge a b ∨ (h.next ≤ a ∧ b < a)

theorem Builds.refl (h : Heap β) : Builds h h := ⟨fun _ _ hx => hx, le_rfl, fun _ _ hab => Or.inl hab⟩

theorem Builds.trans {h'' : Heap β} (h1 : Builds h h') (h2 : Builds h' h'') : Builds h h'' := by
  refine ⟨fun a x hx => h2.grows a x (h1.grows a x hx), h1.next.trans h2.next, fun a b hab => ?_⟩
  rcases h2.edge a b hab with hab | ⟨ha, hb⟩
  · exact h1.edge a b hab
  · exact Or.inr ⟨h1.next.trans ha, hb⟩

theorem Builds.of_obj (hn : h'.next = h.next) (ho : ∀ a, h'.obj a = h.obj a) : Builds h h' := by
  refine ⟨fun a x hx => by rw [ho, hx], hn.ge, fun a b hab => Or.inl ?_⟩
  obtain ⟨x, hx, hb⟩ := hab
  exact ⟨x, by rw [← ho, hx], hb⟩

theorem Builds.retain (h : Heap β) (a : Nat) : Builds h (h.retain a) :=
  Builds.of_obj (retain_next h a) (retain_obj h a)

theorem Builds.retainAll (h : Heap β) (l : List Nat) : Builds h (h.retainAll l) :=
  Builds.of_obj (retainAll_next l h) (retainAll_obj l h)

theorem Builds.drop (h : Heap β) (a : Nat) : Builds h (h.drop a) := Builds.of_obj (drop_next h a) (drop_obj h a)

theorem Builds.alloc (he : Exact h (kids x ++ R) []) : Builds h (h.alloc x) := by
  refine ⟨fun a y hy => ?_, Nat.le_succ _, ?_⟩
  · rw [alloc_obj, if_neg (Nat.ne_of_lt (he.live_lt hy)), hy]
  · rintro a b ⟨y, hy, hb⟩
    rw [alloc_obj] at hy
    split at hy
    · next ha =>
      cases hy
      obtain ⟨z, hz⟩ := he.live_root (List.mem_append_left _ hb)
      exact Or.inr ⟨ha.ge, ha ▸ he.live_lt hz⟩
    · exact Or.inl ⟨y, hy, hb⟩

/-- **Building makes no cycle.** -/
theorem Builds.acyclic (hb : Builds h h') (ha : h.Acyclic) (hlt : ∀ a b, h.Edge a b → b < h.next) : h'.Acyclic := by
  have hway : ∀ a c, TransGen h'.Edge a c →
      (TransGen h.Edge a c ∧ c < h.next) ∨ (h.next ≤ a ∧ c < a) := by
    intro a c hac
    induction hac with
    | single hab =>
      rcases hb.edge _ _ hab with hab | hab
      · exact Or.inl ⟨.single hab, hlt _ _ hab⟩
      · exact Or.inr hab
    | tail _ hcd ih =>
      rcases hb.edge _ _ hcd with hcd | ⟨hc, hd⟩
      · rcases ih with ⟨ih, _⟩ | ⟨ha, _⟩
        · exact Or.inl ⟨ih.tail hcd, hlt _ _ hcd⟩
        · exact Or.inr ⟨ha, lt_of_lt_of_le (hlt _ _ hcd) ha⟩
      · rcases ih with ⟨_, ih⟩ | ⟨ha, hca⟩
        · omega
        · exact Or.inr ⟨ha, by omega⟩
  intro a hc
  rcases hway a a hc with ⟨hc, _⟩ | ⟨_, hc⟩
  · exact ha a hc
  · omega

theorem Acyclic.map (ha : h.Acyclic) (φ : Nat → Nat) (hφ : ∀ a b, h'.Edge a b → h.Edge (φ a) (φ b)) : h'.Acyclic :=
  fun a hc => ha (φ a) (TransGen.lift φ hφ _ _ hc)

theorem Acyclic.alloc (ha : h.Acyclic) (hn : ∀ c, ¬ h.Edge c h.next) (hx : h.next ∉ kids x) : (h.alloc x).Acyclic := by
  refine ha.point (o := h.next) (B := kids x) ?_ ?_
  · rintro a b ⟨y, hy, hb⟩
    rw [alloc_obj] at hy
    split at hy
    · next he =>
      cases hy
      exact Or.inr ⟨he, hb⟩
    · exact Or.inl ⟨y, hy, hb⟩
  · intro b hb hr
    rcases ReflTransGen.cases_tail hr with hr | ⟨c, _, hc⟩
    · exact hx (hr ▸ hb)
    · exact hn c hc

theorem Acyclic.store_add {y : β} {B : List Nat} (ha : h.Acyclic) (hy : h.obj a = some y)
    (hk : ∀ b ∈ kids x, b ∈ kids y ∨ b ∈ B) (hB : ∀ b ∈ B, ¬ h.Reach b a) : (h.store a x).Acyclic := by
  refine ha.point (o := a) (B := B) ?_ hB
  rintro c b ⟨z, hz, hb⟩
  rw [store_obj] at hz
  split at hz
  · next hc =>
    obtain ⟨_, _, rfl⟩ := Option.map_eq_some_iff.mp hz
    rcases hk b hb with hb | hb
    · exact Or.inl ⟨y, hc ▸ hy, hb⟩
    · exact Or.inr ⟨hc, hb⟩
  · exact Or.inl ⟨z, hz, hb⟩

theorem Exact.edge_live (he : Exact h R []) (hab : h.Edge a b) : ∃ y, h.obj b = some y := by
  obtain ⟨x, hx, hb⟩ := hab
  exact he.live_kid hx hb

/-! A block that no cycle reaches has a rank, which goes down along the pointers. -/

open Classical in
noncomputable def rank (h : Heap β) (a : Nat) : Nat := ((Finset.range h.next).filter (fun b => h.Reach a b)).card

theorem rank_le (h : Heap β) (a : Nat) : h.rank a ≤ h.next := by
  classical
  exact (Finset.card_filter_le _ _).trans (Finset.card_range _).le

theorem Acyclic.rank_lt (ha : h.Acyclic) (he : Exact h R N) (hab : h.Edge a b) : h.rank b < h.rank a := by
  classical
  refine Finset.card_lt_card (Finset.ssubset_iff_of_subset ?_ |>.mpr ⟨a, ?_, ?_⟩)
  · intro c hc
    obtain ⟨h1, h2⟩ := mem_filter.mp hc
    exact mem_filter.mpr ⟨h1, ReflTransGen.head hab h2⟩
  · obtain ⟨x, hx, _⟩ := hab
    exact mem_filter.mpr ⟨mem_range.mpr (he.live_lt hx), .refl⟩
  · intro hc
    exact ha a (TransGen.head' hab (mem_filter.mp hc).2)

theorem rank_pos (he : Exact h R N) (hx : h.obj a = some x) : 0 < h.rank a := by
  classical
  exact Finset.card_pos.mpr ⟨a, mem_filter.mpr ⟨mem_range.mpr (he.live_lt hx), .refl⟩⟩

/-! A block counted once is named once. -/

theorem two_le_pointed (he : Exact h R N) {y : β} (hab : a ≠ b) (hx : h.obj a = some x) (hy : h.obj b = some y) :
    (kids x).count c + (kids y).count c ≤ h.pointed c := by
  have hle := Finset.sum_le_sum_of_subset (f := fun b => (h.obj b).elim 0 (fun x => (kids x).count c))
    (show ({a, b} : Finset Nat) ⊆ Finset.range h.next by
      intro d hd
      rcases Finset.mem_insert.mp hd with rfl | hd
      · exact mem_range.mpr (he.live_lt hx)
      · rw [Finset.mem_singleton.mp hd]
        exact mem_range.mpr (he.live_lt hy))
  rw [Finset.sum_pair hab, hx, hy] at hle
  exact hle

theorem Exact.once_root (he : Exact h R []) (h1 : h.refs a = 1) (ha : a ∈ R) : ¬ h.Edge b a := by
  rintro ⟨x, hx, hb⟩
  have h2 := count_le_pointed (c := a) (he.live_lt hx) hx
  have h3 := count_pos_iff.mpr hb
  have h4 := count_pos_iff.mpr ha
  have h5 := he.exact a
  rw [count_nil] at h5
  omega

theorem Exact.once_block (he : Exact h R []) (h1 : h.refs a = 1) (hb : h.Edge b a) (hc : h.Edge c a) : b = c := by
  by_contra hne
  obtain ⟨x, hx, hbx⟩ := hb
  obtain ⟨y, hy, hcy⟩ := hc
  have h2 := two_le_pointed (c := a) he hne hx hy
  have h3 := count_pos_iff.mpr hbx
  have h4 := count_pos_iff.mpr hcy
  have h5 := he.exact a
  rw [count_nil] at h5
  omega

def Enters (h : Heap β) (R : List Nat) : Option Nat → Nat → Prop
  | none, a => a ∈ R
  | some o, a => h.Edge o a

inductive Way (h : Heap β) (R : List Nat) (o : Option Nat) : List Nat → Prop
  | nil : Way h R o []
  | first {a : Nat} : Enters h R o a → h.refs a = 1 → Way h R o [a]
  | step {a b : Nat} {D : List Nat} : Way h R o (a :: D) → h.Edge a b → h.refs b = 1 → Way h R o (b :: a :: D)

theorem Way.once (hw : Way h R o D) : ∀ a ∈ D, h.refs a = 1 := by
  induction hw with
  | nil => simp
  | first _ h1 => simpa using h1
  | step _ _ h1 ih => exact List.forall_mem_cons.mpr ⟨h1, ih⟩

theorem Way.named (he : Exact h R []) (hw : Way h R o D) : ∀ a ∈ D, ∀ b, h.Edge b a → b ∈ D.tail ∨ o = some b := by
  induction hw with
  | nil => simp
  | @first a ha h1 =>
    intro c hc b hb
    rw [List.mem_singleton.mp hc] at hb
    cases o with
    | none => exact absurd hb (he.once_root h1 ha)
    | some o => exact Or.inr (congrArg some (he.once_block h1 ha hb))
  | @step a b D hw hab h1 ih =>
    intro c hc d hd
    rcases List.mem_cons.mp hc with rfl | hc
    · exact Or.inl (he.once_block h1 hd hab ▸ List.mem_cons_self ..)
    · rcases ih c hc d hd with hd | hd
      · exact Or.inl (List.mem_cons_of_mem _ hd)
      · exact Or.inr hd

theorem Way.rooted (he : Exact h R []) (hw : Way h R o D) : ∀ a ∈ D, a ∈ R → o = none ∧ D.getLast? = some a := by
  induction hw with
  | nil => simp
  | @first a ha h1 =>
    intro c hc hR
    rw [List.mem_singleton.mp hc] at hR ⊢
    cases o with
    | none => exact ⟨rfl, rfl⟩
    | some o => exact absurd ha (he.once_root h1 hR)
  | @step a b D hw hab h1 ih =>
    intro c hc hR
    rcases List.mem_cons.mp hc with rfl | hc
    · exact absurd hab (he.once_root h1 hR)
    · rw [List.getLast?_cons_cons]
      exact ih c hc hR

theorem Way.closed (he : Exact h R []) (hw : Way h R none D) (hab : h.Reach a b) (hb : b ∈ D) : a ∈ D := by
  induction hab using ReflTransGen.head_induction_on with
  | refl => exact hb
  | head hac _ ih =>
    rcases hw.named he _ ih _ hac with ha | ha
    · exact List.mem_of_mem_tail ha
    · cases ha

end Pointing
end Heap
end Counted
