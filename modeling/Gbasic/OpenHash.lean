import Mathlib.Data.List.Basic
import Mathlib.Data.List.Perm.Basic
/-!
# OpenHash — slots found by a hash, open addressing (library)

A table holds slot numbers, each in the first free place from its key's hash on, around the end; it grows before it is
half full, so a search meets a free place.  The keys are kept elsewhere and read by their slot number (`keyOf`).  A
search finds a key's slot just where the table holds one (`find_held`, `find_fresh`).  Nothing here names a repository.
-/
namespace Gbasic
namespace OpenHash

variable {S slots : List Nat} {s p : Nat}

structure Map where
  slots : List Nat
  n : Nat

def slotAt (slots : List Nat) (p : Nat) : Nat := slots[p]?.getD 0

def walk (slots : List Nat) (hit : Nat → Bool) : Nat → Nat → Option Nat
  | 0, _ => none
  | fuel + 1, p =>
    if slotAt slots p = 0 ∨ hit (slotAt slots p) = true then some p else walk slots hit fuel ((p + 1) % slots.length)

variable {κ : Type} (hash : κ → Nat) (keyOf : Nat → κ)

/-- A slot put in the first free place. -/
def place (slots : List Nat) (s : Nat) : List Nat :=
  match walk slots (fun _ => false) slots.length (hash (keyOf s) % slots.length) with
  | none => slots
  | some p => slots.set p s

def grow (m : Map) : Map :=
  ⟨(m.slots.filter (fun s => decide (s ≠ 0))).foldl (place hash keyOf)
    (List.replicate (if m.slots.length = 0 then 64 else m.slots.length * 2) 0), m.n⟩

def room (m : Map) : Map := if m.slots.length ≤ m.n * 2 then grow hash keyOf m else m

def find [DecidableEq κ] (m : Map) (key : κ) (insertAs : Nat) : Map × Nat :=
  let m := room hash keyOf m
  match walk m.slots (fun s => decide (keyOf s = key)) m.slots.length (hash key % m.slots.length) with
  | none => (m, 0)
  | some p =>
    if slotAt m.slots p ≠ 0 then (m, slotAt m.slots p)
    else if insertAs ≠ 0 then (⟨m.slots.set p insertAs, m.n + 1⟩, 0) else (m, 0)

/-! ## Places -/

theorem slotAt_set (hp : p < slots.length) (s q : Nat) :
    slotAt (slots.set p s) q = if p = q then s else slotAt slots q := by
  rw [slotAt, List.getElem?_set, slotAt]
  by_cases h : p = q
  · rw [if_pos h, if_pos h, if_pos (h ▸ hp)]
    rfl
  · rw [if_neg h, if_neg h]

theorem slotAt_replicate (c p : Nat) : slotAt (List.replicate c 0) p = 0 := by
  rw [slotAt, List.getElem?_replicate]
  split <;> rfl

/-- **A walk stops at the first place where it should.** -/
theorem walk_first {slots : List Nat} (hit : Nat → Bool) : ∀ {fuel x d : Nat}, d < fuel →
    (slotAt slots ((x + d) % slots.length) = 0 ∨ hit (slotAt slots ((x + d) % slots.length)) = true) →
    ∃ e ≤ d, walk slots hit fuel (x % slots.length) = some ((x + e) % slots.length) ∧
      (slotAt slots ((x + e) % slots.length) = 0 ∨ hit (slotAt slots ((x + e) % slots.length)) = true) ∧
      ∀ f < e, slotAt slots ((x + f) % slots.length) ≠ 0 ∧ hit (slotAt slots ((x + f) % slots.length)) = false
  | fuel + 1, x, d, hd, hstop => by
    rw [walk]
    by_cases h : slotAt slots (x % slots.length) = 0 ∨ hit (slotAt slots (x % slots.length)) = true
    · rw [if_pos h]
      exact ⟨0, Nat.zero_le _, rfl, h, fun f hf => absurd hf (Nat.not_lt_zero f)⟩
    · rw [if_neg h, Nat.mod_add_mod]
      rw [not_or, Bool.not_eq_true] at h
      rcases d with _ | d
      · exact absurd hstop (not_or.2 ⟨h.1, by rw [Nat.add_zero, h.2]; exact Bool.false_ne_true⟩)
      rw [show x + (d + 1) = x + 1 + d by omega] at hstop
      obtain ⟨e, he, hw, hs, hbefore⟩ := walk_first hit (Nat.lt_of_succ_lt_succ hd) hstop
      refine ⟨e + 1, by omega, ?_, ?_, fun f hf => ?_⟩
      · rw [hw, show x + (e + 1) = x + 1 + e by omega]
      · rw [show x + (e + 1) = x + 1 + e by omega]
        exact hs
      · rcases f with _ | f
        · exact h
        · rw [show x + (f + 1) = x + 1 + f by omega]
          exact hbefore f (by omega)

theorem exists_step {c : Nat} (hp : p < c) (x : Nat) : ∃ d < c, (x + d) % c = p := by
  have hx : x % c < c := Nat.mod_lt _ (by omega)
  by_cases h : x % c ≤ p
  · refine ⟨p - x % c, by omega, ?_⟩
    rw [← Nat.mod_add_mod, show x % c + (p - x % c) = p by omega, Nat.mod_eq_of_lt hp]
  · refine ⟨c - x % c + p, by omega, ?_⟩
    rw [← Nat.mod_add_mod, show x % c + (c - x % c + p) = p + c by omega, Nat.add_mod_right, Nat.mod_eq_of_lt hp]

/-! ## What a table holds -/

structure Holds (slots S : List Nat) : Prop where
  perm : (slots.filter (fun s => decide (s ≠ 0))).Perm S
  reach : ∀ s ∈ S, ∃ d < slots.length, slotAt slots ((hash (keyOf s) + d) % slots.length) = s ∧
    ∀ e < d, slotAt slots ((hash (keyOf s) + e) % slots.length) ≠ 0

variable {hash keyOf}

theorem Holds.of_perm {S' : List Nat} (h : Holds hash keyOf slots S) (hp : S.Perm S') : Holds hash keyOf slots S' where
  perm := h.perm.trans hp
  reach s hs := h.reach s (hp.mem_iff.2 hs)

theorem Holds.congr {keyOf' : Nat → κ} (h : Holds hash keyOf slots S) (hsame : ∀ s ∈ S, keyOf' s = keyOf s) :
    Holds hash keyOf' slots S where
  perm := h.perm
  reach s hs := by
    rw [hsame s hs]
    exact h.reach s hs

theorem Holds.mem (h : Holds hash keyOf slots S) (hp : slotAt slots p ≠ 0) : slotAt slots p ∈ S := by
  refine h.perm.mem_iff.1 (List.mem_filter.2 ⟨?_, decide_eq_true hp⟩)
  rw [slotAt] at hp ⊢
  cases hq : slots[p]? with
  | none =>
    rw [hq] at hp
    exact absurd rfl hp
  | some s => exact List.mem_of_getElem? hq

theorem Holds.free (h : Holds hash keyOf slots S) (hroom : S.length < slots.length) :
    ∃ p < slots.length, slotAt slots p = 0 := by
  by_contra hno
  have hall : slots.filter (fun s => decide (s ≠ 0)) = slots := by
    refine List.filter_eq_self.2 (fun s hs => ?_)
    obtain ⟨p, hp, rfl⟩ := List.getElem_of_mem hs
    refine decide_eq_true (fun h0 => hno ⟨p, hp, ?_⟩)
    rw [slotAt, List.getElem?_eq_getElem hp, h0]
    rfl
  have := h.perm.length_eq
  rw [hall] at this
  omega

theorem Holds.walks (h : Holds hash keyOf slots S) (hroom : S.length < slots.length) (hit : Nat → Bool) (x : Nat) :
    ∃ e < slots.length, walk slots hit slots.length (x % slots.length) = some ((x + e) % slots.length) ∧
      (slotAt slots ((x + e) % slots.length) = 0 ∨ hit (slotAt slots ((x + e) % slots.length)) = true) ∧
      ∀ f < e, slotAt slots ((x + f) % slots.length) ≠ 0 ∧ hit (slotAt slots ((x + f) % slots.length)) = false := by
  obtain ⟨p, hp, hfree⟩ := h.free hroom
  obtain ⟨d, hd, rfl⟩ := exists_step hp x
  obtain ⟨e, he, hw⟩ := walk_first hit hd (Or.inl hfree)
  exact ⟨e, Nat.lt_of_le_of_lt he hd, hw⟩

theorem filter_set (hp : p < slots.length) (hfree : slotAt slots p = 0) (hs : s ≠ 0) :
    ((slots.set p s).filter (fun s => decide (s ≠ 0))).Perm (s :: slots.filter (fun s => decide (s ≠ 0))) := by
  have hsplit : slots = slots.take p ++ 0 :: slots.drop (p + 1) := by
    rw [slotAt, List.getElem?_eq_getElem hp, Option.getD_some] at hfree
    rw [← hfree, List.getElem_cons_drop, List.take_append_drop]
  have hset : slots.set p s = slots.take p ++ s :: slots.drop (p + 1) :=
    List.set_eq_take_append_cons_drop.trans (if_pos hp)
  rw [hset]
  conv_rhs => rw [hsplit]
  rw [List.filter_append, List.filter_append, List.filter_cons_of_pos (by simpa using hs),
    List.filter_cons_of_neg (by simp)]
  exact List.perm_middle

/-- **A free place behind taken ones takes a slot.** -/
theorem Holds.insert (h : Holds hash keyOf slots S) {e : Nat} (hs : s ≠ 0) (he : e < slots.length)
    (hfree : slotAt slots ((hash (keyOf s) + e) % slots.length) = 0)
    (htaken : ∀ f < e, slotAt slots ((hash (keyOf s) + f) % slots.length) ≠ 0) :
    Holds hash keyOf (slots.set ((hash (keyOf s) + e) % slots.length) s) (s :: S) := by
  have hp : (hash (keyOf s) + e) % slots.length < slots.length := Nat.mod_lt _ (by omega)
  refine ⟨(filter_set hp hfree hs).trans (h.perm.cons s), fun t ht => ?_⟩
  rw [List.length_set]
  rcases List.mem_cons.1 ht with rfl | ht
  · refine ⟨e, he, by rw [slotAt_set hp, if_pos rfl], fun f hf => ?_⟩
    rw [slotAt_set hp]
    split
    · exact hs
    · exact htaken f hf
  · obtain ⟨d, hd, hat, hbefore⟩ := h.reach t ht
    have ht0 : t ≠ 0 := of_decide_eq_true (List.mem_filter.1 (h.perm.mem_iff.2 ht)).2
    refine ⟨d, hd, ?_, fun f hf => ?_⟩
    · rw [slotAt_set hp, if_neg (fun hq => ?_), hat]
      rw [hq, hat] at hfree
      exact ht0 hfree
    · rw [slotAt_set hp]
      split
      · exact hs
      · exact hbefore f hf

theorem Holds.place (h : Holds hash keyOf slots S) (hroom : S.length < slots.length) (hs : s ≠ 0) :
    Holds hash keyOf (OpenHash.place hash keyOf slots s) (s :: S) := by
  obtain ⟨e, he, hw, hstop, hbefore⟩ := h.walks hroom (fun _ => false) (hash (keyOf s))
  rw [OpenHash.place, hw]
  exact h.insert hs he (hstop.resolve_right Bool.false_ne_true) (fun f hf => (hbefore f hf).1)

theorem length_place (slots : List Nat) (s : Nat) : (place hash keyOf slots s).length = slots.length := by
  rw [place]
  split
  · rfl
  · rw [List.length_set]

theorem Holds.places : ∀ {L slots S : List Nat}, Holds hash keyOf slots S → S.length + L.length < slots.length →
    (∀ s ∈ L, s ≠ 0) → Holds hash keyOf (L.foldl (OpenHash.place hash keyOf) slots) (L ++ S)
  | [], _, _, h, _, _ => h
  | s :: L, slots, S, h, hroom, hL => by
    rw [List.length_cons] at hroom
    rw [List.foldl_cons]
    have hnext := h.place (by omega) (hL s (List.mem_cons_self ..))
    refine (Holds.places hnext (by rw [length_place, List.length_cons]; omega)
      (fun t ht => hL t (List.mem_cons_of_mem s ht))).of_perm ?_
    rw [List.cons_append]
    exact List.perm_middle

theorem length_places : ∀ (L slots : List Nat), (L.foldl (place hash keyOf) slots).length = slots.length
  | [], _ => rfl
  | s :: L, slots => by rw [List.foldl_cons, length_places L, length_place]

/-! ## Searches -/

variable (hash keyOf) in
/-- A table and the slots it holds. -/
structure Map.Ok (m : Map) (S : List Nat) : Prop where
  holds : Holds hash keyOf m.slots S
  count : m.n = S.length

theorem Map.Ok.congr {m : Map} {keyOf' : Nat → κ} (h : m.Ok hash keyOf S) (hsame : ∀ s ∈ S, keyOf' s = keyOf s) :
    m.Ok hash keyOf' S := ⟨h.holds.congr hsame, h.count⟩

theorem ok_empty : Map.Ok hash keyOf ⟨[], 0⟩ [] where
  holds := ⟨List.Perm.refl _, fun s hs => by cases hs⟩
  count := rfl

/-- **Room is made** without a slot lost. -/
theorem Map.Ok.room {m : Map} (h : m.Ok hash keyOf S) :
    (OpenHash.room hash keyOf m).Ok hash keyOf S ∧ S.length < (OpenHash.room hash keyOf m).slots.length := by
  rw [OpenHash.room]
  by_cases hfull : m.slots.length ≤ m.n * 2
  · rw [if_pos hfull, grow]
    have hle : S.length ≤ m.slots.length := by
      rw [← h.holds.perm.length_eq]
      exact List.length_filter_le _ _
    have hroom : S.length < if m.slots.length = 0 then 64 else m.slots.length * 2 := by
      split <;> omega
    have hempty : Holds hash keyOf (List.replicate (if m.slots.length = 0 then 64 else m.slots.length * 2) 0) [] := by
      refine ⟨?_, fun s hs => by cases hs⟩
      rw [List.filter_eq_nil_iff.2 (fun s hs => by simp [List.eq_of_mem_replicate hs])]
    have hplaced := hempty.places (L := m.slots.filter (fun s => decide (s ≠ 0)))
      (by rw [List.length_nil, Nat.zero_add, h.holds.perm.length_eq, List.length_replicate]; exact hroom)
      (fun s hs => of_decide_eq_true (List.mem_filter.1 hs).2)
    rw [List.append_nil] at hplaced
    refine ⟨⟨hplaced.of_perm h.holds.perm, h.count⟩, ?_⟩
    dsimp only
    rw [length_places, List.length_replicate]
    exact hroom
  · rw [if_neg hfull]
    exact ⟨h, by have := h.count; omega⟩

theorem Holds.walk_held [DecidableEq κ] (h : Holds hash keyOf slots S)
    (hinj : ∀ s ∈ S, ∀ t ∈ S, keyOf s = keyOf t → s = t) (hs : s ∈ S) :
    ∃ p, walk slots (fun t => decide (keyOf t = keyOf s)) slots.length (hash (keyOf s) % slots.length) = some p ∧
      slotAt slots p = s := by
  obtain ⟨d, hd, hat, hbefore⟩ := h.reach s hs
  obtain ⟨e, he, hw, hstop, -⟩ := walk_first (fun t => decide (keyOf t = keyOf s)) hd
    (Or.inr (by rw [hat]; exact decide_eq_true rfl))
  -- what the walk stops at is no free place, and has the key
  have hne : slotAt slots ((hash (keyOf s) + e) % slots.length) ≠ 0 := by
    rcases Nat.lt_or_eq_of_le he with hlt | rfl
    · exact hbefore e hlt
    · rw [hat]
      exact of_decide_eq_true (List.mem_filter.1 (h.perm.mem_iff.2 hs)).2
  exact ⟨_, hw, hinj _ (h.mem hne) s hs (of_decide_eq_true (hstop.resolve_left hne))⟩

theorem Holds.walk_fresh [DecidableEq κ] (h : Holds hash keyOf slots S) (hroom : S.length < slots.length) {key : κ}
    (hno : ∀ s ∈ S, keyOf s ≠ key) :
    ∃ e < slots.length, walk slots (fun t => decide (keyOf t = key)) slots.length (hash key % slots.length) =
        some ((hash key + e) % slots.length) ∧ slotAt slots ((hash key + e) % slots.length) = 0 ∧
      ∀ f < e, slotAt slots ((hash key + f) % slots.length) ≠ 0 := by
  obtain ⟨e, he, hw, hstop, hbefore⟩ := h.walks hroom (fun t => decide (keyOf t = key)) (hash key)
  refine ⟨e, he, hw, ?_, fun f hf => (hbefore f hf).1⟩
  by_contra hne
  exact hno _ (h.mem hne) (of_decide_eq_true (hstop.resolve_left hne))

/-- **A key that is held is found**, and the table holds what it held. -/
theorem find_held [DecidableEq κ] {m : Map} (h : m.Ok hash keyOf S)
    (hinj : ∀ s ∈ S, ∀ t ∈ S, keyOf s = keyOf t → s = t) (hs : s ∈ S) (insertAs : Nat) :
    (find hash keyOf m (keyOf s) insertAs).2 = s ∧ (find hash keyOf m (keyOf s) insertAs).1.Ok hash keyOf S := by
  obtain ⟨hok, -⟩ := h.room
  rw [find]
  generalize OpenHash.room hash keyOf m = m at hok
  obtain ⟨p, hw, hat⟩ := hok.holds.walk_held hinj hs
  have hs0 : s ≠ 0 := of_decide_eq_true (List.mem_filter.1 (hok.holds.perm.mem_iff.2 hs)).2
  rw [hw]
  dsimp only
  rw [hat, if_pos hs0]
  exact ⟨rfl, hok⟩

/-- **A key that is not held is not found**, and takes the slot it is given. -/
theorem find_fresh [DecidableEq κ] {m : Map} (h : m.Ok hash keyOf S) {key : κ} (hno : ∀ s ∈ S, keyOf s ≠ key)
    {insertAs : Nat} (hkey : insertAs ≠ 0 → keyOf insertAs = key) : (find hash keyOf m key insertAs).2 = 0 ∧
      (find hash keyOf m key insertAs).1.Ok hash keyOf (if insertAs ≠ 0 then insertAs :: S else S) := by
  obtain ⟨hok, hroom⟩ := h.room
  rw [find]
  generalize OpenHash.room hash keyOf m = m at hok hroom
  obtain ⟨e, he, hw, hfree, hbefore⟩ := hok.holds.walk_fresh hroom hno
  rw [hw]
  dsimp only
  rw [if_neg (not_not.2 hfree)]
  by_cases hi : insertAs ≠ 0
  · rw [if_pos hi, if_pos hi]
    rw [← hkey hi] at hfree hbefore ⊢
    refine ⟨rfl, ⟨hok.holds.insert hi he hfree hbefore, ?_⟩⟩
    rw [List.length_cons, hok.count]
  · rw [if_neg hi, if_neg hi]
    exact ⟨rfl, hok⟩

end OpenHash
end Gbasic
