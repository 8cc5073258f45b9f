import Mathlib.Data.List.Sort
/-!
# SortedMap — a finite map in the order of its keys (library)

The entries carry the proof that their keys strictly ascend, so a map is what `get` answers (`ext_get`), and the
greatest entry at or below a key (`floor`) is told by what `get` answers too (`floor_eq_some`, `floor_eq_none`).  A map
made from another, entry by entry (`Indexed`), is kept so by a change to both.
Nothing here names a repository.
-/
namespace Gbasic

open List (mem_cons pairwise_cons mem_filter)

variable {κ ν : Type} [LinearOrder κ]

structure SortedMap (κ ν : Type) [LinearOrder κ] where
  entries : List (κ × ν)
  asc : entries.Pairwise (fun a b => a.1 < b.1)

namespace SortedMap

def empty : SortedMap κ ν := ⟨[], List.Pairwise.nil⟩

def get (m : SortedMap κ ν) (k : κ) : Option ν := (m.entries.find? (fun e => decide (e.1 = k))).map (·.2)

def insertEntry (k : κ) (v : ν) : List (κ × ν) → List (κ × ν)
  | [] => [(k, v)]
  | e :: l => if k < e.1 then (k, v) :: e :: l else if e.1 < k then e :: insertEntry k v l else (k, v) :: l

theorem mem_insertEntry {k : κ} {v : ν} {a : κ × ν} : ∀ {l : List (κ × ν)}, a ∈ insertEntry k v l → a = (k, v) ∨ a ∈ l
  | [], h => by
    rw [insertEntry, List.mem_singleton] at h
    exact .inl h
  | e :: l, h => by
    rw [insertEntry] at h
    split_ifs at h with hk hk'
    · rcases mem_cons.1 h with h | h
      · exact .inl h
      · exact .inr h
    · rcases mem_cons.1 h with h | h
      · exact .inr (h ▸ List.mem_cons_self ..)
      · rcases mem_insertEntry h with h | h
        · exact .inl h
        · exact .inr (List.mem_cons_of_mem _ h)
    · rcases mem_cons.1 h with h | h
      · exact .inl h
      · exact .inr (List.mem_cons_of_mem _ h)

theorem insertEntry_asc {k : κ} {v : ν} : ∀ {l : List (κ × ν)}, l.Pairwise (fun a b => a.1 < b.1) →
    (insertEntry k v l).Pairwise (fun a b => a.1 < b.1)
  | [], _ => List.pairwise_singleton _ _
  | e :: l, h => by
    obtain ⟨he, hl⟩ := pairwise_cons.1 h
    rw [insertEntry]
    split_ifs with hk hk'
    · refine pairwise_cons.2 ⟨fun b hb => ?_, h⟩
      rcases mem_cons.1 hb with rfl | hb
      · exact hk
      · exact hk.trans (he b hb)
    · refine pairwise_cons.2 ⟨fun b hb => ?_, insertEntry_asc hl⟩
      rcases mem_insertEntry hb with rfl | hb
      · exact hk'
      · exact he b hb
    · have hke : k = e.1 := le_antisymm (not_lt.1 hk') (not_lt.1 hk)
      exact pairwise_cons.2 ⟨fun b hb => hke ▸ he b hb, hl⟩

def put (m : SortedMap κ ν) (k : κ) (v : ν) : SortedMap κ ν := ⟨insertEntry k v m.entries, insertEntry_asc m.asc⟩

def del (m : SortedMap κ ν) (k : κ) : SortedMap κ ν :=
  ⟨m.entries.filter (fun e => decide (e.1 ≠ k)), m.asc.sublist List.filter_sublist⟩

def mapVal {μ : Type} (f : ν → μ) (m : SortedMap κ ν) : SortedMap κ μ :=
  ⟨m.entries.map (fun e => (e.1, f e.2)), List.pairwise_map.2 m.asc⟩

def floor (m : SortedMap κ ν) (k : κ) : Option (κ × ν) := (m.entries.filter (fun e => decide (e.1 ≤ k))).getLast?

/-! ## What a map answers -/

theorem get_eq_some_iff {m : SortedMap κ ν} {k : κ} {v : ν} : m.get k = some v ↔ (k, v) ∈ m.entries := by
  constructor
  · intro h
    obtain ⟨e, he, rfl⟩ := Option.map_eq_some_iff.1 h
    have hk : e.1 = k := by simpa using List.find?_some he
    exact hk ▸ List.mem_of_find?_eq_some he
  · obtain ⟨l, h⟩ := m
    intro hm
    rw [get]
    dsimp only at hm ⊢
    induction l with
    | nil => cases hm
    | cons e l ih =>
      obtain ⟨he, hl⟩ := pairwise_cons.1 h
      rcases mem_cons.1 hm with rfl | hm
      · simp
      · rw [List.find?_cons_of_neg (by simpa using (he _ hm).ne), ih hl hm]

theorem get_eq_none_iff {m : SortedMap κ ν} {k : κ} : m.get k = none ↔ ∀ v, (k, v) ∉ m.entries := by
  constructor
  · intro h v hv
    rw [get_eq_some_iff.2 hv] at h
    cases h
  · intro h
    rcases hg : m.get k with _ | v
    · rfl
    · exact absurd (get_eq_some_iff.1 hg) (h v)

@[simp] theorem get_empty (k : κ) : (empty : SortedMap κ ν).get k = none := rfl

theorem ext_get {m m' : SortedMap κ ν} (h : ∀ k, m.get k = m'.get k) : m = m' := by
  have hmem : ∀ e : κ × ν, e ∈ m.entries ↔ e ∈ m'.entries := by
    rintro ⟨k, v⟩
    rw [← get_eq_some_iff, ← get_eq_some_iff, h]
  obtain ⟨l, hl⟩ := m
  obtain ⟨l', hl'⟩ := m'
  have : Std.Antisymm (fun a b : κ × ν => a.1 < b.1) := ⟨fun a b hab hba => absurd hab hba.asymm⟩
  have : Std.Irrefl (fun a b : κ × ν => a.1 < b.1) := ⟨fun a => lt_irrefl a.1⟩
  have hll : l = l' := hl.eq_of_mem_iff hl' hmem
  subst hll
  rfl

theorem mem_put {m : SortedMap κ ν} {k : κ} {v : ν} {e : κ × ν} :
    e ∈ (m.put k v).entries ↔ e = (k, v) ∨ e ∈ m.entries ∧ e.1 ≠ k := by
  obtain ⟨l, h⟩ := m
  show e ∈ insertEntry k v l ↔ e = (k, v) ∨ e ∈ l ∧ e.1 ≠ k
  induction l with
  | nil => simp [insertEntry]
  | cons a l ih =>
    obtain ⟨ha, hl⟩ := pairwise_cons.1 h
    have ih := ih hl
    rw [insertEntry]
    split_ifs with hk hk'
    · have hne : ∀ b ∈ a :: l, b.1 ≠ k := by
        intro b hb
        rcases mem_cons.1 hb with rfl | hb
        · exact hk.ne'
        · exact (hk.trans (ha b hb)).ne'
      rw [mem_cons]
      exact or_congr_right ⟨fun hb => ⟨hb, hne e hb⟩, fun hb => hb.1⟩
    · rw [mem_cons, mem_cons, ih]
      constructor
      · rintro (rfl | rfl | ⟨he, hne⟩)
        · exact .inr ⟨.inl rfl, hk'.ne⟩
        · exact .inl rfl
        · exact .inr ⟨.inr he, hne⟩
      · rintro (rfl | ⟨rfl | he, hne⟩)
        · exact .inr (.inl rfl)
        · exact .inl rfl
        · exact .inr (.inr ⟨he, hne⟩)
    · have hka : k = a.1 := le_antisymm (not_lt.1 hk') (not_lt.1 hk)
      rw [mem_cons, mem_cons]
      constructor
      · rintro (rfl | he)
        · exact .inl rfl
        · exact .inr ⟨.inr he, hka ▸ (ha e he).ne'⟩
      · rintro (rfl | ⟨rfl | he, hne⟩)
        · exact .inl rfl
        · exact absurd hka.symm hne
        · exact .inr he

theorem mem_del {m : SortedMap κ ν} {k : κ} {e : κ × ν} : e ∈ (m.del k).entries ↔ e ∈ m.entries ∧ e.1 ≠ k := by
  simp [del]

theorem get_put (m : SortedMap κ ν) (k k' : κ) (v : ν) : (m.put k v).get k' = if k' = k then some v else m.get k' := by
  by_cases hk : k' = k
  · rw [if_pos hk]
    exact get_eq_some_iff.2 (mem_put.2 (.inl (by rw [hk])))
  · rw [if_neg hk]
    rcases hg : m.get k' with _ | w
    · refine get_eq_none_iff.2 (fun w hw => ?_)
      rcases mem_put.1 hw with he | he
      · exact hk (Prod.mk.inj he).1
      · exact get_eq_none_iff.1 hg w he.1
    · exact get_eq_some_iff.2 (mem_put.2 (.inr ⟨get_eq_some_iff.1 hg, hk⟩))

theorem get_del (m : SortedMap κ ν) (k k' : κ) : (m.del k).get k' = if k' = k then none else m.get k' := by
  by_cases hk : k' = k
  · rw [if_pos hk]
    exact get_eq_none_iff.2 (fun v hv => (mem_del.1 hv).2 hk)
  · rw [if_neg hk]
    rcases hg : m.get k' with _ | w
    · exact get_eq_none_iff.2 (fun w hw => get_eq_none_iff.1 hg w (mem_del.1 hw).1)
    · exact get_eq_some_iff.2 (mem_del.2 ⟨get_eq_some_iff.1 hg, hk⟩)

@[simp] theorem get_put_self (m : SortedMap κ ν) (k : κ) (v : ν) : (m.put k v).get k = some v := by
  rw [get_put, if_pos rfl]

theorem get_put_of_ne (m : SortedMap κ ν) {k k' : κ} (h : k' ≠ k) (v : ν) : (m.put k v).get k' = m.get k' := by
  rw [get_put, if_neg h]

@[simp] theorem get_del_self (m : SortedMap κ ν) (k : κ) : (m.del k).get k = none := by
  rw [get_del, if_pos rfl]

theorem get_del_of_ne (m : SortedMap κ ν) {k k' : κ} (h : k' ≠ k) : (m.del k).get k' = m.get k' := by
  rw [get_del, if_neg h]

theorem get_mapVal {μ : Type} (f : ν → μ) (m : SortedMap κ ν) (k : κ) : (m.mapVal f).get k = (m.get k).map f := by
  unfold get mapVal
  rw [List.find?_map, Option.map_map, Option.map_map]
  rfl

/-! ## The floor -/

/-- **The floor is there, at or below the key, and nothing that is there stands between.** -/
theorem floor_eq_some {m : SortedMap κ ν} {k a : κ} {v : ν} (h : m.floor k = some (a, v)) :
    m.get a = some v ∧ a ≤ k ∧ ∀ b w, m.get b = some w → b ≤ k → b ≤ a := by
  obtain ⟨l, hl⟩ := List.getLast?_eq_some_iff.1 h
  have hmem : (a, v) ∈ m.entries.filter (fun e => decide (e.1 ≤ k)) := by rw [hl]; simp
  obtain ⟨ha, hak⟩ := mem_filter.1 hmem
  refine ⟨get_eq_some_iff.2 ha, of_decide_eq_true hak, fun b w hb hbk => ?_⟩
  have hasc : (l ++ [(a, v)]).Pairwise (fun a b => a.1 < b.1) := hl ▸ m.asc.sublist List.filter_sublist
  have hb' : (b, w) ∈ l ++ [(a, v)] := hl ▸ mem_filter.2 ⟨get_eq_some_iff.1 hb, decide_eq_true hbk⟩
  rcases List.mem_append.1 hb' with hb' | hb'
  · exact ((List.pairwise_append.1 hasc).2.2 _ hb' _ (List.mem_singleton_self _)).le
  · exact (Prod.mk.inj (List.mem_singleton.1 hb')).1.le

theorem floor_eq_none {m : SortedMap κ ν} {k : κ} (h : m.floor k = none) : ∀ b w, m.get b = some w → ¬ b ≤ k := by
  intro b w hb hbk
  have hnil := List.getLast?_eq_none_iff.1 h
  have hmem : (b, w) ∈ m.entries.filter (fun e => decide (e.1 ≤ k)) :=
    mem_filter.2 ⟨get_eq_some_iff.1 hb, decide_eq_true hbk⟩
  rw [hnil] at hmem
  cases hmem

/-! ## A map made from another -/

theorem put_eq_put_del (m : SortedMap κ ν) (k : κ) (v : ν) : m.put k v = (m.del k).put k v := by
  apply ext_get
  intro k'
  rw [get_put, get_put, get_del]
  split_ifs <;> rfl

section
variable {α β : Type} [LinearOrder α] {f g : κ → ν → Option (α × β)} {back back' : α × β → Option κ}
  {m : SortedMap κ ν} {i : SortedMap α β} {k : κ} {v v' : ν} {e : α × β}

/-- `i` holds what `f` makes of each entry of `m` and nothing else, and what it holds leads back to `m`'s key. -/
structure Indexed (f : κ → ν → Option (α × β)) (back : α × β → Option κ) (m : SortedMap κ ν) (i : SortedMap α β) :
    Prop where
  holds : ∀ a b, i.get a = some b ↔ ∃ k v, m.get k = some v ∧ f k v = some (a, b)
  back : ∀ k v e, m.get k = some v → f k v = some e → back e = some k

theorem Indexed.unique (h : Indexed f back m i) {k' : κ} {e' : α × β} (hk : m.get k = some v) (he : f k v = some e)
    (hk' : m.get k' = some v') (he' : f k' v' = some e') (hee : e.1 = e'.1) : k = k' := by
  have hi : i.get e.1 = some e.2 := (h.holds _ _).2 ⟨k, v, hk, he⟩
  have hi' : i.get e'.1 = some e'.2 := (h.holds _ _).2 ⟨k', v', hk', he'⟩
  rw [hee, hi'] at hi
  have heq : e = e' := Prod.ext hee (Option.some.inj hi).symm
  have hb := h.back k v e hk he
  rw [heq, h.back k' v' e' hk' he'] at hb
  exact (Option.some.inj hb).symm

theorem Indexed.del (h : Indexed f back m i) (hk : m.get k = some v) (he : f k v = some e) :
    Indexed f back (m.del k) (i.del e.1) where
  holds a b := by
    rw [get_del]
    constructor
    · intro hi
      by_cases ha : a = e.1
      · rw [if_pos ha] at hi
        cases hi
      · rw [if_neg ha] at hi
        obtain ⟨k', v', hk', he'⟩ := (h.holds a b).1 hi
        have hne : k' ≠ k := by
          rintro rfl
          rw [hk] at hk'
          cases hk'
          rw [he] at he'
          cases he'
          exact ha rfl
        exact ⟨k', v', by rw [get_del_of_ne m hne]; exact hk', he'⟩
    · rintro ⟨k', v', hk', he'⟩
      rw [get_del] at hk'
      by_cases hkk : k' = k
      · rw [if_pos hkk] at hk'
        cases hk'
      · rw [if_neg hkk] at hk'
        have ha : a ≠ e.1 := fun hae => hkk (h.unique hk' he' hk he hae)
        rw [if_neg ha]
        exact (h.holds a b).2 ⟨k', v', hk', he'⟩
  back k' v' e' hk' he' := by
    rw [get_del] at hk'
    by_cases hkk : k' = k
    · rw [if_pos hkk] at hk'
      cases hk'
    · rw [if_neg hkk] at hk'
      exact h.back k' v' e' hk' he'

theorem Indexed.put (h : Indexed f back m i) (hk : m.get k = none) (he : f k v = some e) (hb : back e = some k)
    (hi : i.get e.1 = none) : Indexed f back (m.put k v) (i.put e.1 e.2) where
  holds a b := by
    rw [get_put]
    constructor
    · intro hg
      by_cases ha : a = e.1
      · rw [if_pos ha] at hg
        cases hg
        exact ⟨k, v, get_put_self .., by rw [ha]; exact he⟩
      · rw [if_neg ha] at hg
        obtain ⟨k', v', hk', he'⟩ := (h.holds a b).1 hg
        have hne : k' ≠ k := by
          rintro rfl
          rw [hk] at hk'
          cases hk'
        exact ⟨k', v', by rw [get_put_of_ne m hne]; exact hk', he'⟩
    · rintro ⟨k', v', hk', he'⟩
      rw [get_put] at hk'
      by_cases hkk : k' = k
      · rw [if_pos hkk] at hk'
        cases hk'
        rw [hkk, he] at he'
        cases he'
        rw [if_pos rfl]
      · rw [if_neg hkk] at hk'
        have hg := (h.holds a b).2 ⟨k', v', hk', he'⟩
        have ha : a ≠ e.1 := by
          rintro rfl
          rw [hi] at hg
          cases hg
        rw [if_neg ha]
        exact hg
  back k' v' e' hk' he' := by
    rw [get_put] at hk'
    by_cases hkk : k' = k
    · rw [if_pos hkk] at hk'
      cases hk'
      rw [hkk, he] at he'
      cases he'
      rw [hkk]
      exact hb
    · rw [if_neg hkk] at hk'
      exact h.back k' v' e' hk' he'

theorem Indexed.same (h : Indexed f back m i) (hk : m.get k = some v) (hf : f k v' = f k v) :
    Indexed f back (m.put k v') i where
  holds a b := by
    rw [h.holds]
    constructor
    · rintro ⟨k', w, hk', he'⟩
      by_cases hkk : k' = k
      · subst hkk
        rw [hk] at hk'
        cases hk'
        exact ⟨k', v', get_put_self .., hf.trans he'⟩
      · exact ⟨k', w, by rw [get_put_of_ne m hkk]; exact hk', he'⟩
    · rintro ⟨k', w, hk', he'⟩
      rw [get_put] at hk'
      by_cases hkk : k' = k
      · subst hkk
        rw [if_pos rfl] at hk'
        cases hk'
        exact ⟨k', v, hk, hf.symm.trans he'⟩
      · rw [if_neg hkk] at hk'
        exact ⟨k', w, hk', he'⟩
  back k' w e' hk' he' := by
    rw [get_put] at hk'
    by_cases hkk : k' = k
    · subst hkk
      rw [if_pos rfl] at hk'
      cases hk'
      exact h.back k' v e' hk (hf.symm.trans he')
    · rw [if_neg hkk] at hk'
      exact h.back k' w e' hk' he'

theorem Indexed.congr (h : Indexed f back m i) (hf : ∀ k v, m.get k = some v → g k v = f k v)
    (hb : ∀ k v e, m.get k = some v → g k v = some e → back' e = some k) : Indexed g back' m i where
  holds a b := by
    rw [h.holds]
    constructor
    · rintro ⟨k, v, hk, he⟩
      exact ⟨k, v, hk, (hf k v hk).trans he⟩
    · rintro ⟨k, v, hk, he⟩
      exact ⟨k, v, hk, (hf k v hk).symm.trans he⟩
  back := hb

end

end SortedMap
end Gbasic
