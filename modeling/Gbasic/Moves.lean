import Gbasic.SortedMap
/-!
# Moves — entries of a map moved or taken away in turn (library)

A move takes an entry out and may put one back under another key, which must be free by then.  Moves of different
entries, each there from the start, come to one change of the map whatever their order (`Moved.get_eq_some`): what none
of them takes stays, and what they put is there.  Nothing here names a repository.
-/
namespace Gbasic

variable {κ ν : Type} [LinearOrder κ]

structure Move (κ ν : Type) where
  key : κ
  new : Option (κ × ν)

namespace Move

def apply (m : SortedMap κ ν) (c : Move κ ν) : SortedMap κ ν :=
  match c.new with
  | none => m.del c.key
  | some (k, v) => (m.del c.key).put k v

/-- The entry is there, and the place of what is put back is free. -/
structure Fits (m : SortedMap κ ν) (c : Move κ ν) : Prop where
  there : (m.get c.key).isSome
  free : ∀ k v, c.new = some (k, v) → (m.del c.key).get k = none

theorem get_apply (m : SortedMap κ ν) (c : Move κ ν) (k : κ) (v : ν) :
    (c.apply m).get k = some v ↔
      c.new = some (k, v) ∨ (∀ w, c.new ≠ some (k, w)) ∧ k ≠ c.key ∧ m.get k = some v := by
  unfold apply
  rcases c with ⟨key, _ | ⟨k', v'⟩⟩
  · dsimp only
    rw [SortedMap.get_del]
    by_cases hk : k = key
    · simp [hk]
    · simp [hk]
  · dsimp only
    rw [SortedMap.get_put, SortedMap.get_del]
    by_cases hkk : k = k'
    · subst hkk
      simp
    · have hne : ∀ w, some (k', v') ≠ some (k, w) := fun w h => hkk (Prod.mk.inj (Option.some.inj h)).1.symm
      rw [if_neg hkk]
      by_cases hk : k = key
      · rw [if_pos hk]
        constructor
        · intro h
          cases h
        · rintro (h | ⟨-, h, -⟩)
          · exact absurd h (hne v)
          · exact absurd hk h
      · rw [if_neg hk]
        constructor
        · intro h
          exact .inr ⟨hne, hk, h⟩
        · rintro (h | ⟨-, -, h⟩)
          · exact absurd h (hne v)
          · exact h

end Move

inductive Moved : SortedMap κ ν → List (Move κ ν) → SortedMap κ ν → Prop
  | nil (m : SortedMap κ ν) : Moved m [] m
  | cons {m m' : SortedMap κ ν} {c : Move κ ν} {cs : List (Move κ ν)} (hfit : c.Fits m)
      (hrest : Moved (c.apply m) cs m') : Moved m (c :: cs) m'

section
variable {m m' : SortedMap κ ν} {c : Move κ ν} {cs : List (Move κ ν)} {k : κ} {v : ν}

theorem Move.Fits.other (h : c.Fits m) (hne : k ≠ c.key) (hk : (m.get k).isSome) : (c.apply m).get k = m.get k := by
  obtain ⟨v, hv⟩ := Option.isSome_iff_exists.1 hk
  rw [hv, Move.get_apply]
  refine .inr ⟨fun w hw => ?_, hne, hv⟩
  have hfree := h.free k w hw
  rw [SortedMap.get_del_of_ne m hne, hv] at hfree
  cases hfree

/-- **Moves of different entries come to one change**, whatever their order. -/
theorem Moved.get_eq_some (h : Moved m cs m') (hnd : (cs.map Move.key).Nodup) (hin : ∀ c ∈ cs, (m.get c.key).isSome) :
    m'.get k = some v ↔ (k ∉ cs.map Move.key ∧ m.get k = some v) ∨ ∃ c ∈ cs, c.new = some (k, v) := by
  induction h with
  | nil m => simp
  | @cons m m' c cs hfit hrest ih =>
    rw [List.map_cons, List.nodup_cons] at hnd
    have hother : ∀ d ∈ cs, (c.apply m).get d.key = m.get d.key := by
      intro d hd
      refine hfit.other (fun he => hnd.1 ?_) (hin d (List.mem_cons_of_mem _ hd))
      exact he ▸ List.mem_map_of_mem hd
    rw [ih hnd.2 (fun d hd => by rw [hother d hd]; exact hin d (List.mem_cons_of_mem _ hd)), List.map_cons,
      List.mem_cons, not_or]
    -- what is put back is not an entry still to be taken
    have hput : ∀ w, c.new = some (k, w) → k ∉ cs.map Move.key := by
      intro w hw hmem
      obtain ⟨d, hd, rfl⟩ := List.mem_map.1 hmem
      have hne : d.key ≠ c.key := fun he => hnd.1 (he ▸ hmem)
      have hfree := hfit.free _ w hw
      rw [SortedMap.get_del_of_ne m hne] at hfree
      have hthere := hin d (List.mem_cons_of_mem _ hd)
      rw [hfree] at hthere
      cases hthere
    rw [Move.get_apply]
    constructor
    · rintro (⟨hk, hnew | ⟨-, hne, hv⟩⟩ | ⟨d, hd, hnew⟩)
      · exact .inr ⟨c, List.mem_cons_self .., hnew⟩
      · exact .inl ⟨⟨hne, hk⟩, hv⟩
      · exact .inr ⟨d, List.mem_cons_of_mem _ hd, hnew⟩
    · rintro (⟨⟨hne, hk⟩, hv⟩ | ⟨d, hd, hnew⟩)
      · refine .inl ⟨hk, .inr ⟨fun w hw => ?_, hne, hv⟩⟩
        have hfree := hfit.free k w hw
        rw [SortedMap.get_del_of_ne m hne, hv] at hfree
        cases hfree
      · rcases List.mem_cons.1 hd with rfl | hd
        · exact .inl ⟨hput v hnew, .inl hnew⟩
        · exact .inr ⟨d, hd, hnew⟩

theorem Moved.stays (h : Moved m cs m') (hnd : (cs.map Move.key).Nodup) (hin : ∀ c ∈ cs, (m.get c.key).isSome)
    (hk : (m.get k).isSome) (hput : k ∈ cs.map Move.key → ∃ c ∈ cs, ∃ v, c.new = some (k, v)) : (m'.get k).isSome := by
  obtain ⟨v, hv⟩ := Option.isSome_iff_exists.1 hk
  by_cases hmem : k ∈ cs.map Move.key
  · obtain ⟨c, hc, w, hw⟩ := hput hmem
    rw [(h.get_eq_some hnd hin).2 (.inr ⟨c, hc, hw⟩)]
    rfl
  · rw [(h.get_eq_some hnd hin).2 (.inl ⟨hmem, hv⟩)]
    rfl

end
end Gbasic
