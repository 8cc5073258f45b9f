import Mathlib.Order.Lattice
import Mathlib.Logic.Function.Basic
/-!
# History — values kept by where they start (library)

A register's current value is held apart from its past; the past keeps each value, and each absence, under the instant
it started at, and the answer at an instant is the last record at or before it.  `Faithful` says that the two together
answer what the register held then, and each move of the register keeps it: a new instant (`Faithful.advance`), a value
kept (`Faithful.keep`), set (`Faithful.set`), replaced (`Faithful.replace`) or removed (`Faithful.remove`).  Nothing
here names a repository.
-/
namespace Gbasic

variable {ι α : Type} [LinearOrder ι]

/-- What is kept: by the instant it starts at, a value or its absence. -/
abbrev Kept (ι α : Type) := ι → Option (Option α)

/-- The last record at or before an instant, an absence where there is none. -/
def Kept.Answers (h : Kept ι α) (a : ι) (r : Option α) : Prop :=
  (∃ s, s ≤ a ∧ h s = some r ∧ ∀ s', s < s' → s' ≤ a → h s' = none) ∨ (r = none ∧ ∀ s, s ≤ a → h s = none)

def Kept.AsOf (start : α → ι) (h : Kept ι α) (cur : Option α) (a : ι) (r : Option α) : Prop :=
  match cur with
  | some x => if start x ≤ a then r = some x else h.Answers a r
  | none => h.Answers a r

/-- What a register answered before the instant `now`, and what it holds since. -/
def heldAt (now : ι) (cur : Option α) (past : ι → Option α) (a : ι) : Option α := if now ≤ a then cur else past a

/-- **The records and the current value answer what the register held**, `past` before the instant `now`. -/
structure Faithful (start : α → ι) (now : ι) (past : ι → Option α) (h : Kept ι α) (cur : Option α) : Prop where
  kept_le : ∀ s, h s ≠ none → s ≤ now
  kept_cur : ∀ x, cur = some x → ∀ s, h s ≠ none → s ≤ start x
  cur_le : ∀ x, cur = some x → start x ≤ now
  below : ∀ a, a < now → h.AsOf start cur a (past a)
  above : ∀ a, now ≤ a → h.AsOf start cur a cur

namespace Kept

theorem Answers.unique {h : Kept ι α} {a : ι} {r r' : Option α} (hr : h.Answers a r) (hr' : h.Answers a r') :
    r = r' := by
  rcases hr with ⟨s, hs, hrs, hnone⟩ | ⟨rfl, hnone⟩ <;> rcases hr' with ⟨s', hs', hrs', hnone'⟩ | ⟨rfl, hnone'⟩
  · rcases lt_trichotomy s s' with hlt | rfl | hlt
    · rw [hnone s' hlt hs'] at hrs'
      cases hrs'
    · exact Option.some.inj (hrs.symm.trans hrs')
    · rw [hnone' s hlt hs] at hrs
      cases hrs
  · rw [hnone' s hs] at hrs
    cases hrs
  · rw [hnone s' hs'] at hrs'
    cases hrs'
  · rfl

theorem Answers.update_of_lt {h : Kept ι α} {a s : ι} {r : Option α} (hr : h.Answers a r) (hs : a < s)
    (q : Option (Option α)) : Kept.Answers (Function.update h s q) a r := by
  have hsame : ∀ s', s' ≤ a → Function.update h s q s' = h s' :=
    fun s' hs' => Function.update_of_ne (hs'.trans_lt hs).ne q h
  rcases hr with ⟨s', hs', hrs, hnone⟩ | ⟨rfl, hnone⟩
  · exact .inl ⟨s', hs', (hsame s' hs').trans hrs, fun t ht hta => (hsame t hta).trans (hnone t ht hta)⟩
  · exact .inr ⟨rfl, fun t hta => (hsame t hta).trans (hnone t hta)⟩

theorem answers_of_last {h : Kept ι α} {a s : ι} {r : Option α} (hs : s ≤ a) (hr : h s = some r)
    (hlast : ∀ s', h s' ≠ none → s' ≤ s) : h.Answers a r :=
  .inl ⟨s, hs, hr, fun s' hs' _ => by
    by_contra hne
    exact absurd (hlast s' hne) (not_le.2 hs')⟩

theorem update_ne_none {h : Kept ι α} {s s' : ι} {r : Option α} (hs : Function.update h s (some r) s' ≠ none) :
    s' = s ∨ h s' ≠ none := by
  by_cases he : s' = s
  · exact .inl he
  · rw [Function.update_of_ne he] at hs
    exact .inr hs

end Kept

namespace Faithful

variable {start : α → ι} {now : ι} {past : ι → Option α} {h : Kept ι α} {cur : Option α}

/-- **At every instant the answer is what the register held.** -/
theorem asOf (hf : Faithful start now past h cur) (a : ι) : h.AsOf start cur a (heldAt now cur past a) := by
  unfold heldAt
  split_ifs with ha
  · exact hf.above a ha
  · exact hf.below a (not_le.1 ha)

theorem empty (hnone : ∀ s, h s = none) (now : ι) : Faithful start now (fun _ => none) h none where
  kept_le s hs := absurd (hnone s) hs
  kept_cur x hx := by cases hx
  cur_le x hx := by cases hx
  below a _ := .inr ⟨rfl, fun s _ => hnone s⟩
  above a _ := .inr ⟨rfl, fun s _ => hnone s⟩

theorem advance (hf : Faithful start now past h cur) {now' : ι} (hlt : now < now') :
    Faithful start now' (heldAt now cur past) h cur where
  kept_le s hs := (hf.kept_le s hs).trans hlt.le
  kept_cur := hf.kept_cur
  cur_le x hx := (hf.cur_le x hx).trans hlt.le
  below a _ := hf.asOf a
  above a ha := hf.above a (hlt.le.trans ha)

theorem keep {x : α} (hf : Faithful start now past h (some x)) :
    Faithful start now past (Function.update h (start x) (some (some x))) (some x) where
  kept_le s hs := by
    rcases Kept.update_ne_none hs with rfl | hs
    · exact hf.cur_le x rfl
    · exact hf.kept_le s hs
  kept_cur y hy s hs := by
    cases hy
    rcases Kept.update_ne_none hs with rfl | hs
    · exact le_rfl
    · exact hf.kept_cur x rfl s hs
  cur_le := hf.cur_le
  below a ha := by
    have hold := hf.below a ha
    unfold Kept.AsOf at hold ⊢
    dsimp only at hold ⊢
    split_ifs at hold ⊢ with hx
    · exact hold
    · exact hold.update_of_lt (not_le.1 hx) _
  above a ha := by
    unfold Kept.AsOf
    dsimp only
    rw [if_pos ((hf.cur_le x rfl).trans ha)]

theorem set (hf : Faithful start now past h none) {v : α} (hv : start v = now) :
    Faithful start now past h (some v) where
  kept_le := hf.kept_le
  kept_cur y hy s hs := by
    cases hy
    rw [hv]
    exact hf.kept_le s hs
  cur_le y hy := by
    cases hy
    exact hv.le
  below a ha := by
    unfold Kept.AsOf
    dsimp only
    rw [if_neg (by rw [hv]; exact not_le.2 ha)]
    exact hf.below a ha
  above a ha := by
    unfold Kept.AsOf
    dsimp only
    rw [if_pos (by rw [hv]; exact ha)]

theorem answers_below {x : α} (hf : Faithful start now past h (some x))
    (hkept : start x < now → h (start x) = some (some x)) {a : ι} (ha : a < now) : h.Answers a (past a) := by
  have hold := hf.below a ha
  unfold Kept.AsOf at hold
  dsimp only at hold
  split_ifs at hold with hx
  · rw [hold]
    exact Kept.answers_of_last hx (hkept (hx.trans_lt ha)) (hf.kept_cur x rfl)
  · exact hold

theorem replace {x v : α} (hf : Faithful start now past h (some x))
    (hkept : start x < now → h (start x) = some (some x)) (hv : start v = now) :
    Faithful start now past h (some v) where
  kept_le := hf.kept_le
  kept_cur y hy s hs := by
    cases hy
    rw [hv]
    exact hf.kept_le s hs
  cur_le y hy := by
    cases hy
    exact hv.le
  below a ha := by
    unfold Kept.AsOf
    dsimp only
    rw [if_neg (by rw [hv]; exact not_le.2 ha)]
    exact hf.answers_below hkept ha
  above a ha := by
    unfold Kept.AsOf
    dsimp only
    rw [if_pos (by rw [hv]; exact ha)]

theorem remove {x : α} (hf : Faithful start now past h (some x))
    (hkept : start x < now → h (start x) = some (some x)) :
    Faithful start now past (Function.update h now (some none)) none where
  kept_le s hs := by
    rcases Kept.update_ne_none hs with rfl | hs
    · exact le_rfl
    · exact hf.kept_le s hs
  kept_cur y hy := by cases hy
  cur_le y hy := by cases hy
  below a ha := (hf.answers_below hkept ha).update_of_lt ha _
  above a ha := by
    refine Kept.answers_of_last ha (Function.update_self ..) (fun s hs => ?_)
    rcases Kept.update_ne_none hs with rfl | hs
    · exact le_rfl
    · exact hf.kept_le s hs

end Faithful
end Gbasic
