import Mathlib.Data.List.Basic
/-!
# Framing — items cut off the front of a stream (library)

A reader that says of a stream whether a whole item stands at its front, whether one may still come, or whether none
ever can.  What it answers once, more of the stream does not change, so a stream has its items however it arrives in
pieces.  Nothing here names a repository.
-/
namespace Gbasic
namespace Framing

/-- What stands at the front of a stream: a whole item with what follows it, not all of one yet, or what is no item. -/
inductive Front (α β : Type) where
  | whole (item : β) (rest : List α)
  | short
  | corrupt
deriving DecidableEq

/-- A reader of fronts.  A whole item ends where it says, whatever follows; what is no item never becomes one. -/
structure Framer (α β : Type) where
  front : List α → Front α β
  ends : ∀ {xs : List α} {b : β} {r : List α}, front xs = .whole b r →
    ∃ p, p ≠ [] ∧ xs = p ++ r ∧ ∀ ys, front (p ++ ys) = .whole b ys
  stays : ∀ {xs : List α}, front xs = .corrupt → ∀ ys, front (xs ++ ys) = .corrupt

variable {α β : Type} (F : Framer α β)

variable {xs r written unread : List α} {b : β} {taken : List (Option β)}

theorem Framer.shorter (h : F.front xs = .whole b r) : r.length < xs.length := by
  obtain ⟨p, hp, rfl, -⟩ := F.ends h
  have := List.length_pos_iff.2 hp
  rw [List.length_append]
  omega

theorem Framer.longer (h : F.front xs = .whole b r) (ys : List α) : F.front (xs ++ ys) = .whole b (r ++ ys) := by
  obtain ⟨p, -, rfl, hp⟩ := F.ends h
  rw [List.append_assoc]
  exact hp (r ++ ys)

theorem Framer.short_of_cut {p q : List α} (h : F.front (p ++ q) = .whole b []) (hq : q ≠ []) : F.front p = .short := by
  cases hf : F.front p with
  | short => rfl
  | whole c r =>
    rw [F.longer hf q] at h
    have hr : r ++ q = [] := by
      injection h
    exact absurd (List.append_eq_nil_iff.1 hr).2 hq
  | corrupt =>
    rw [F.stays hf q] at h
    cases h

/-! ## A stream's items -/

/-- The items of a stream in its order.  A stream that goes on as no item can ends with `none`. -/
def items (xs : List α) : List (Option β) :=
  match _h : F.front xs with
  | .whole b r => some b :: items r
  | .short => []
  | .corrupt => [none]
termination_by xs.length
decreasing_by exact F.shorter ‹_›

theorem items_whole (h : F.front xs = .whole b r) : items F xs = some b :: items F r := by
  rw [items]
  split
  · rename_i b' r' h'
    rw [h] at h'
    cases h'
    rfl
  · rename_i h'
    rw [h] at h'
    cases h'
  · rename_i h'
    rw [h] at h'
    cases h'

theorem items_short (h : F.front xs = .short) : items F xs = [] := by
  rw [items]
  split
  · rename_i h'
    rw [h] at h'
    cases h'
  · rfl
  · rename_i h'
    rw [h] at h'
    cases h'

theorem items_corrupt (h : F.front xs = .corrupt) : items F xs = [none] := by
  rw [items]
  split
  · rename_i h'
    rw [h] at h'
    cases h'
  · rename_i h'
    rw [h] at h'
    cases h'
  · rfl

theorem items_stay : ∀ {xs : List α}, none ∈ items F xs → ∀ ys, items F (xs ++ ys) = items F xs := by
  intro xs
  induction xs using items.induct F with
  | case1 xs b r h ih =>
    intro hn ys
    rw [items_whole F h] at hn ⊢
    rw [items_whole F (F.longer h ys), ih (by simpa using hn) ys]
  | case2 xs h =>
    intro hn
    rw [items_short F h] at hn
    cases hn
  | case3 xs h =>
    intro _ ys
    rw [items_corrupt F h, items_corrupt F (F.stays h ys)]

theorem items_prefix : ∀ xs ys : List α, items F xs <+: items F (xs ++ ys) := by
  intro xs
  induction xs using items.induct F with
  | case1 xs b r h ih =>
    intro ys
    rw [items_whole F h, items_whole F (F.longer h ys)]
    exact (List.prefix_cons_inj (some b)).2 (ih ys)
  | case2 xs h =>
    intro ys
    rw [items_short F h]
    exact List.nil_prefix
  | case3 xs h =>
    intro ys
    have hsame : items F (xs ++ ys) = items F xs := by rw [items_corrupt F h, items_corrupt F (F.stays h ys)]
    exact hsame ▸ List.prefix_rfl

/-! ## Whole items, one after the other -/

def Holds : List β → List α → Prop
  | [], p => p = []
  | b :: bs, p => ∃ q r, p = q ++ r ∧ (∀ ys, F.front (q ++ ys) = .whole b ys) ∧ Holds bs r

theorem Holds.append : ∀ {bs : List β} {p : List α}, Holds F bs p → ∀ {cs : List β} {q : List α}, Holds F cs q →
    Holds F (bs ++ cs) (p ++ q)
  | [], p, h, cs, q, h' => by
    rw [show p = [] from h]
    exact h'
  | b :: bs, p, ⟨u, v, hp, hu, hv⟩, cs, q, h' => by
    refine ⟨u, v ++ q, ?_, hu, Holds.append hv h'⟩
    rw [hp, List.append_assoc]

theorem holds_one {q : List α} (h : ∀ ys, F.front (q ++ ys) = .whole b ys) : Holds F [b] q :=
  ⟨q, [], (List.append_nil q).symm, h, rfl⟩

theorem Holds.items : ∀ {bs : List β} {p : List α}, Holds F bs p → ∀ ys : List α,
    Framing.items F (p ++ ys) = bs.map some ++ Framing.items F ys
  | [], p, h, ys => by
    rw [show p = [] from h]
    rfl
  | b :: bs, p, ⟨u, v, hp, hu, hv⟩, ys => by
    rw [hp, List.append_assoc, items_whole F (hu (v ++ ys)), Holds.items hv ys]
    rfl

theorem holds_flatMap {enc : β → List α} : ∀ {bs : List β}, (∀ b ∈ bs, ∀ ys, F.front (enc b ++ ys) = .whole b ys) →
    Holds F bs (bs.flatMap enc)
  | [], _ => rfl
  | b :: bs, h => by
    refine ⟨enc b, bs.flatMap enc, rfl, h b List.mem_cons_self, ?_⟩
    exact holds_flatMap fun c hc => h c (List.mem_cons_of_mem b hc)

/-! ## Streams that begin alike -/

def Agree (e : Nat) (xs ys : List α) : Prop :=
  e ≤ xs.length ∧ e ≤ ys.length ∧ xs.take e = ys.take e

theorem Agree.window {e : Nat} {xs ys : List α} (h : Agree e xs ys) (pos n : Nat) (hn : pos + n ≤ e) :
    (xs.drop pos).take n = (ys.drop pos).take n := by
  have hcut : ∀ l : List α, (l.drop pos).take n = ((l.take e).drop pos).take n := by
    intro l
    rw [List.drop_take, List.take_take, Nat.min_eq_left (by omega)]
  rw [hcut xs, hcut ys, h.2.2]

theorem agree_append (xs ys : List α) : Agree xs.length xs (xs ++ ys) := by
  refine ⟨Nat.le_refl _, by rw [List.length_append]; omega, ?_⟩
  rw [List.take_length, List.take_left]

theorem agree_take {e : Nat} {xs : List α} (he : e ≤ xs.length) (ys : List α) : Agree e xs (xs.take e ++ ys) := by
  have hl : (xs.take e).length = e := List.length_take_of_le he
  refine ⟨he, by rw [List.length_append, hl]; omega, ?_⟩
  rw [List.take_append_of_le_length (Nat.le_of_eq hl.symm), List.take_take, Nat.min_self]

/-! ## Reading on -/

/-- Of a stream written so far these items were taken, and this much stands unread. -/
def Reads (taken : List (Option β)) (written unread : List α) : Prop :=
  ∃ bs p, taken = bs.map some ∧ written = p ++ unread ∧ Holds F bs p

theorem reads_start (xs : List α) : Reads F [] xs xs :=
  ⟨[], [], rfl, rfl, rfl⟩

theorem Reads.more (h : Reads F taken written unread) (ys : List α) : Reads F taken (written ++ ys) (unread ++ ys) := by
  obtain ⟨bs, p, ht, hw, hp⟩ := h
  exact ⟨bs, p, ht, by rw [hw, List.append_assoc], hp⟩

theorem Reads.next (h : Reads F taken written unread) (hf : F.front unread = .whole b r) :
    Reads F (taken ++ [some b]) written r := by
  obtain ⟨bs, p, ht, hw, hp⟩ := h
  obtain ⟨q, -, hq, hall⟩ := F.ends hf
  refine ⟨bs ++ [b], p ++ q, ?_, ?_, hp.append F (holds_one F hall)⟩
  · rw [ht, List.map_append]
    rfl
  · rw [hw, hq, List.append_assoc]

theorem Reads.items (h : Reads F taken written unread) : taken ++ Framing.items F unread = Framing.items F written := by
  obtain ⟨bs, p, ht, hw, hp⟩ := h
  rw [hw, ht, hp.items F]

end Framing
end Gbasic
