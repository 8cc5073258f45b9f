import Gbasic.HashJoin
/-!
# HashJoinBuild — the rows a probe is offered

A group's chain has its rows in their order (`Chain`), and the map finds each group by its key, so what an opening is
offered is the rows whose column has the probe's key (`offered_keyed`).
-/
namespace Gbasic
namespace HashJoin

open OpenHash (find find_held find_fresh)
open List (mem_cons getElem?_set_ne append_nil length_append length_singleton)
open Table (keyOf)

variable {kf : Nat → Option Bytes} {i n s : Nat} {key : Bytes} {keys : List Bytes} {t : Table} {d : Datum}

/-! ## Chains -/

/-- The rows of a chain, from a row's number to the zero at its end. -/
inductive Chain (next : List Nat) : Nat → List Nat → Prop where
  | nil : Chain next 0 []
  | cons {i : Nat} {l : List Nat} (h : Chain next ((next[i]?).getD 0) l) : Chain next (i + 1) (i :: l)

theorem chase_eq {next : List Nat} : ∀ {fuel cur : Nat} {l : List Nat}, Chain next cur l → l.length ≤ fuel →
    chase next fuel cur = l
  | 0, _, _, .nil, _ => rfl
  | fuel + 1, _, _, .nil, _ => rfl
  | fuel + 1, _, _, .cons (i := i) h, hlen => by
    rw [chase, if_neg (Nat.succ_ne_zero i), Nat.add_sub_cancel, chase_eq h (Nat.le_of_succ_le_succ hlen)]

theorem Chain.set_of_not_mem {next : List Nat} {a b cur : Nat} {l : List Nat} (h : Chain next cur l) (ha : a ∉ l) :
    Chain (next.set a b) cur l := by
  induction h with
  | nil => exact .nil
  | @cons i l h ih =>
    rw [mem_cons, not_or] at ha
    refine .cons ?_
    rw [getElem?_set_ne ha.1]
    exact ih ha.2

theorem Chain.extend {next : List Nat} {a j : Nat} (ha : a < next.length) (hj : (next[j]?).getD 0 = 0) (hne : a ≠ j) :
    ∀ {l : List Nat} {cur : Nat}, Chain next cur (l ++ [a]) → a ∉ l → Chain (next.set a (j + 1)) cur (l ++ [a] ++ [j])
  | [], cur, h, _ => by
    cases h with
    | cons h =>
      refine .cons ?_
      rw [List.getElem?_set_self ha, Option.getD_some]
      refine .cons ?_
      rw [getElem?_set_ne hne, hj]
      exact .nil
  | i :: l, cur, h, hl => by
    rw [mem_cons, not_or] at hl
    cases h with
    | cons h =>
      refine .cons ?_
      rw [getElem?_set_ne hl.1]
      exact Chain.extend ha hj hne h hl.2

/-! ## Groups -/

/-- The rows of a group, among the first. -/
def group (kf : Nat → Option Bytes) (i : Nat) (k : Bytes) : List Nat :=
  (List.range i).filter (fun j => decide (kf j = some k))

theorem group_succ (kf : Nat → Option Bytes) (i : Nat) (k : Bytes) :
    group kf (i + 1) k = group kf i k ++ if kf i = some k then [i] else [] := by
  rw [group, List.range_succ, List.filter_append, List.filter_singleton]
  by_cases h : kf i = some k
  · rw [if_pos h, decide_eq_true h]
    rfl
  · rw [if_neg h, decide_eq_false h]
    rfl

theorem group_mem {j : Nat} {k : Bytes} : j ∈ group kf i k ↔ j < i ∧ kf j = some k := by
  rw [group, List.mem_filter, List.mem_range, decide_eq_true_eq]

def slotsTo : Nat → List Nat
  | 0 => []
  | m + 1 => (m + 1) :: slotsTo m

theorem slotsTo_mem {s : Nat} : ∀ {m : Nat}, s ∈ slotsTo m ↔ 1 ≤ s ∧ s ≤ m
  | 0 => by
    rw [slotsTo]
    exact iff_of_false (by simp) (by omega)
  | m + 1 => by
    rw [slotsTo, mem_cons, slotsTo_mem]
    omega

theorem keyOf_append (h : s ∈ slotsTo keys.length) : keyOf (keys ++ [key]) s = keyOf keys s := by
  have := slotsTo_mem.1 h
  rw [keyOf, keyOf, List.getElem?_append_left (by omega)]

theorem keyOf_last (keys : List Bytes) (key : Bytes) : keyOf (keys ++ [key]) (keys.length + 1) = key := by
  rw [keyOf, Nat.add_sub_cancel, List.getElem?_append_right (Nat.le_refl _), Nat.sub_self]
  rfl

theorem keyOf_mem (h : s ∈ slotsTo keys.length) : keyOf keys s ∈ keys := by
  have := slotsTo_mem.1 h
  rw [keyOf, List.getElem?_eq_getElem (by omega : s - 1 < keys.length)]
  exact List.getElem_mem _

theorem keyOf_inj (hn : keys.Nodup) {t : Nat} (hs : s ∈ slotsTo keys.length) (ht : t ∈ slotsTo keys.length)
    (h : keyOf keys s = keyOf keys t) : s = t := by
  have h1 := slotsTo_mem.1 hs
  have h2 := slotsTo_mem.1 ht
  rw [keyOf, keyOf, List.getElem?_eq_getElem (by omega : s - 1 < keys.length),
    List.getElem?_eq_getElem (by omega : t - 1 < keys.length), Option.getD_some, Option.getD_some,
    List.Nodup.getElem_inj_iff hn] at h
  omega

theorem exists_slot (h : key ∈ keys) : ∃ s ∈ slotsTo keys.length, keyOf keys s = key := by
  obtain ⟨g, hg, rfl⟩ := List.getElem_of_mem h
  refine ⟨g + 1, slotsTo_mem.2 (by omega), ?_⟩
  rw [keyOf, Nat.add_sub_cancel, List.getElem?_eq_getElem hg]
  rfl

/-! ## The table -/

structure Built (kf : Nat → Option Bytes) (n i : Nat) (t : Table) : Prop where
  nodup : t.keys.Nodup
  cover : ∀ j < i, ∀ k, kf j = some k → k ∈ t.keys
  map : t.map.Ok keyHash (keyOf t.keys) (slotsTo t.keys.length)
  first : t.first.length = t.keys.length
  last : t.last.length = t.keys.length
  next : t.next.length = n
  zero : ∀ j, i ≤ j → (t.next[j]?).getD 0 = 0
  chains : ∀ s ∈ slotsTo t.keys.length, ∃ l a, group kf i (keyOf t.keys s) = l ++ [a] ∧
    Chain t.next ((t.first[s - 1]?).getD 0) (l ++ [a]) ∧ (t.last[s - 1]?).getD 0 = a + 1

theorem Built.start (kf : Nat → Option Bytes) (n : Nat) : Built kf n 0 ⟨[], [], [], List.replicate n 0, ⟨[], 0⟩⟩ where
  nodup := List.nodup_nil
  cover j hj := absurd hj (Nat.not_lt_zero j)
  map := OpenHash.ok_empty
  first := rfl
  last := rfl
  next := List.length_replicate
  zero j _ := OpenHash.slotAt_replicate n j
  chains s hs := by cases hs

theorem Built.skip (h : Built kf n i t) (hk : kf i = none) : Built kf n (i + 1) t where
  nodup := h.nodup
  cover j hj k hjk := by
    rcases Nat.lt_succ_iff_lt_or_eq.1 hj with hlt | rfl
    · exact h.cover j hlt k hjk
    · rw [hk] at hjk
      cases hjk
  map := h.map
  first := h.first
  last := h.last
  next := h.next
  zero j hj := h.zero j (by omega)
  chains s hs := by
    obtain ⟨l, a, hg, hc, hl⟩ := h.chains s hs
    refine ⟨l, a, ?_, hc, hl⟩
    rw [group_succ, if_neg (by rw [hk]; simp), append_nil, hg]

theorem Built.fresh (h : Built kf n i t) (hk : kf i = some key) (hnot : key ∉ t.keys) {map : OpenHash.Map}
    (hmap : map.Ok keyHash (keyOf (t.keys ++ [key])) (slotsTo (t.keys.length + 1))) :
    Built kf n (i + 1) ⟨t.keys ++ [key], t.first ++ [i + 1], t.last ++ [i + 1], t.next, map⟩ where
  nodup := List.nodup_append.2 ⟨h.nodup, List.nodup_singleton key, fun a ha b hb hab => by
    rw [List.mem_singleton] at hb
    exact hnot (hb ▸ hab ▸ ha)⟩
  cover j hj k hjk := by
    rcases Nat.lt_succ_iff_lt_or_eq.1 hj with hlt | rfl
    · exact List.mem_append_left _ (h.cover j hlt k hjk)
    · rw [hk] at hjk
      cases hjk
      exact List.mem_append_right _ (List.mem_singleton_self key)
  map := by
    dsimp only
    rw [length_append, length_singleton]
    exact hmap
  first := by
    dsimp only
    rw [length_append, length_append, h.first, length_singleton, length_singleton]
  last := by
    dsimp only
    rw [length_append, length_append, h.last, length_singleton, length_singleton]
  next := h.next
  zero j hj := h.zero j (by omega)
  chains s hs := by
    dsimp only at hs ⊢
    rw [length_append, length_singleton] at hs
    rcases mem_cons.1 hs with rfl | hs
    · refine ⟨[], i, ?_, ?_, ?_⟩
      · have hnone : group kf i key = [] := by
          rw [List.eq_nil_iff_forall_not_mem]
          intro j hj
          have hj := group_mem.1 hj
          exact hnot (h.cover j hj.1 key hj.2)
        rw [keyOf_last, group_succ, hnone, if_pos hk]
      · rw [Nat.add_sub_cancel, ← h.first, List.getElem?_append_right (Nat.le_refl _), Nat.sub_self]
        refine .cons ?_
        rw [h.zero i (Nat.le_refl i)]
        exact .nil
      · rw [Nat.add_sub_cancel, ← h.last, List.getElem?_append_right (Nat.le_refl _), Nat.sub_self]
        rfl
    · have hs' := slotsTo_mem.1 hs
      obtain ⟨l, a, hg, hc, hl⟩ := h.chains s hs
      have hkey : ¬kf i = some (keyOf t.keys s) := by
        rw [hk]
        intro he
        exact hnot (Option.some.inj he ▸ keyOf_mem hs)
      refine ⟨l, a, ?_, ?_, ?_⟩
      · rw [keyOf_append hs, group_succ, if_neg hkey, append_nil, hg]
      · rw [List.getElem?_append_left (by rw [h.first]; omega)]
        exact hc
      · rw [List.getElem?_append_left (by rw [h.last]; omega)]
        exact hl

theorem Built.more (h : Built kf n i t) (hi : i < n) {g : Nat} (hg : g ∈ slotsTo t.keys.length)
    (hk : kf i = some (keyOf t.keys g)) {map : OpenHash.Map}
    (hmap : map.Ok keyHash (keyOf t.keys) (slotsTo t.keys.length)) :
    Built kf n (i + 1) ⟨t.keys, t.first, t.last.set (g - 1) (i + 1),
      t.next.set ((t.last[g - 1]?).getD 0 - 1) (i + 1), map⟩ := by
  obtain ⟨l, a, hgroup, hchain, hlast⟩ := h.chains g hg
  have hg' := slotsTo_mem.1 hg
  have ha : a ∈ group kf i (keyOf t.keys g) := hgroup ▸ List.mem_append_right l (List.mem_singleton_self a)
  have hai := group_mem.1 ha
  have hal : a ∉ l := by
    have hn : (group kf i (keyOf t.keys g)).Nodup := List.nodup_range.filter _
    rw [hgroup, List.nodup_append] at hn
    exact fun hm => hn.2.2 a hm a (List.mem_singleton_self a) rfl
  rw [hlast, Nat.add_sub_cancel]
  refine ⟨h.nodup, fun j hj k hjk => ?_, hmap, h.first, by rw [List.length_set]; exact h.last,
    by rw [List.length_set]; exact h.next, fun j hj => ?_, fun s hs => ?_⟩
  · rcases Nat.lt_succ_iff_lt_or_eq.1 hj with hlt | rfl
    · exact h.cover j hlt k hjk
    · rw [hk] at hjk
      exact Option.some.inj hjk ▸ keyOf_mem hg
  · dsimp only
    rw [getElem?_set_ne (by omega)]
    exact h.zero j (by omega)
  · dsimp only at hs ⊢
    have hs' := slotsTo_mem.1 hs
    by_cases hsg : s = g
    · subst hsg
      refine ⟨l ++ [a], i, ?_, ?_, ?_⟩
      · rw [group_succ, if_pos hk, hgroup]
      · exact Chain.extend (by rw [h.next]; omega) (h.zero i (Nat.le_refl i)) (by omega) hchain hal
      · rw [List.getElem?_set_self (by rw [h.last]; omega)]
        rfl
    · obtain ⟨l', a', hgroup', hchain', hlast'⟩ := h.chains s hs
      have hkey : ¬kf i = some (keyOf t.keys s) := by
        rw [hk]
        exact fun he => hsg (keyOf_inj h.nodup hs hg (Option.some.inj he).symm)
      refine ⟨l', a', ?_, ?_, ?_⟩
      · rw [group_succ, if_neg hkey, append_nil, hgroup']
      · refine hchain'.set_of_not_mem (fun hm => ?_)
        rw [← hgroup'] at hm
        have := (group_mem.1 hm).2
        rw [hai.2] at this
        exact hsg (keyOf_inj h.nodup hs hg (Option.some.inj this).symm)
      · rw [getElem?_set_ne (by omega)]
        exact hlast'

/-- **A row put in the table.** -/
theorem Built.row (h : Built kf n i t) (hi : i < n) (hd : kf i = groupKey d) : Built kf n (i + 1) (hashRow t i d) := by
  rw [hashRow]
  cases hk : groupKey d with
  | none => exact h.skip (hd.trans hk)
  | some key =>
    dsimp only
    have hmap : t.map.Ok keyHash (keyOf (t.keys ++ [key])) (slotsTo t.keys.length) :=
      h.map.congr (fun s hs => keyOf_append hs)
    by_cases hmem : key ∈ t.keys
    · obtain ⟨s, hs, rfl⟩ := exists_slot hmem
      have hinj : ∀ s' ∈ slotsTo t.keys.length, ∀ t' ∈ slotsTo t.keys.length,
          keyOf (t.keys ++ [keyOf t.keys s]) s' = keyOf (t.keys ++ [keyOf t.keys s]) t' → s' = t' := by
        intro s' hs' t' ht' he
        rw [keyOf_append hs', keyOf_append ht'] at he
        exact keyOf_inj h.nodup hs' ht' he
      obtain ⟨hfound, hok⟩ := find_held hmap hinj hs (t.keys.length + 1)
      rw [keyOf_append hs] at hfound hok
      rw [hfound, if_neg (by have := slotsTo_mem.1 hs; omega)]
      exact h.more hi hs (hd.trans hk) (hok.congr (fun s' hs' => (keyOf_append hs').symm))
    · obtain ⟨hzero, hok⟩ := find_fresh hmap
        (fun s hs he => hmem (by rw [keyOf_append hs] at he; exact he ▸ keyOf_mem hs)) (fun _ => keyOf_last t.keys key)
      rw [if_pos (Nat.succ_ne_zero _)] at hok
      rw [hzero, if_pos rfl]
      exact h.fresh (hd.trans hk) hmem hok

def keyAt (col : Nat) (rows : List Inner) (i : Nat) : Option Bytes := (rows[i]?).bind (fun r => groupKey (r col))

theorem Built.rows {col : Nat} {all : List Inner} : ∀ {rows done : List Inner} {t : Table}, all = done ++ rows →
    Built (keyAt col all) all.length done.length t →
    Built (keyAt col all) all.length all.length (hashRows col rows done.length t)
  | [], done, t, hall, h => by
    rw [append_nil] at hall
    rw [hashRows]
    rw [← hall] at h
    exact h
  | r :: rows, done, t, hall, h => by
    have hlen : done.length < all.length := by
      rw [hall, length_append, List.length_cons]
      omega
    have hkey : keyAt col all done.length = groupKey (r col) := by
      rw [keyAt, hall, List.getElem?_append_right (Nat.le_refl _), Nat.sub_self]
      rfl
    have hnext := h.row hlen hkey
    have hdone : (done ++ [r]).length = done.length + 1 := by rw [length_append, length_singleton]
    rw [hashRows, ← hdone]
    rw [← hdone] at hnext
    exact Built.rows (by rw [hall, List.append_assoc]; rfl) hnext

/-- **The table built** has every row in its group. -/
theorem built (col : Nat) (rows : List Inner) : Built (keyAt col rows) rows.length rows.length (hashBuild col rows) :=
  have hstart : Built (keyAt col rows) rows.length ([] : List Inner).length _ := Built.start _ _
  Built.rows (List.nil_append rows).symm hstart

/-! ## What is offered -/

theorem append_of_groupKey (h : groupKey d = some key) :
    ∃ used, Key.keyAppend [] d.bytes ⟨false, false⟩ = (.ok, key, used) := by
  rw [groupKey] at h
  split at h
  · cases h
  split at h
  · rename_i k used happend
    cases h
    exact ⟨used, happend⟩
  · cases h

/-- **A probe with a key is offered** the rows of its group. -/
theorem offered_keyed {col : Nat} {rows : List Inner} (hnull : d.isNull = false) (hkey : groupKey d = some key) :
    offered (hashBuild col rows) rows.length d = group (keyAt col rows) rows.length key := by
  have hbuilt := built col rows
  generalize hashBuild col rows = t at hbuilt
  obtain ⟨used, happend⟩ := append_of_groupKey hkey
  rw [offered, hnull, if_neg Bool.false_ne_true, happend]
  dsimp only
  have hlen : ∀ k, (group (keyAt col rows) rows.length k).length ≤ rows.length := fun k =>
    (List.length_filter_le _ _).trans_eq List.length_range
  by_cases hmem : key ∈ t.keys
  · obtain ⟨s, hs, rfl⟩ := exists_slot hmem
    have hs' := slotsTo_mem.1 hs
    have hslots : t.map.slots.length ≠ 0 := by
      intro h0
      have hnil := hbuilt.map.holds.perm
      rw [List.length_eq_zero_iff.1 h0] at hnil
      rw [← hnil.mem_iff] at hs
      cases hs
    have hfound := (find_held hbuilt.map (fun a ha b hb he => keyOf_inj hbuilt.nodup ha hb he) hs 0).1
    obtain ⟨l, a, hgroup, hchain, -⟩ := hbuilt.chains s hs
    rw [if_neg hslots, hfound, if_neg (by omega)]
    rw [← hgroup] at hchain
    exact chase_eq hchain (hlen _)
  · have hnone : group (keyAt col rows) rows.length key = [] := by
      rw [List.eq_nil_iff_forall_not_mem]
      intro j hj
      have hj := group_mem.1 hj
      exact hmem (hbuilt.cover j hj.1 key hj.2)
    have hno : ∀ s ∈ slotsTo t.keys.length, keyOf t.keys s ≠ key := fun s hs he => hmem (he ▸ keyOf_mem hs)
    have hzero := (find_fresh hbuilt.map hno (fun h0 : (0 : Nat) ≠ 0 => absurd rfl h0)).1
    rw [hnone, hzero, if_pos rfl]
    split <;> rfl

theorem filterMap_group (rows : List Inner) (p : Inner → Bool) :
    ((List.range rows.length).filter (fun i => (rows[i]?).any p)).filterMap (fun i => rows[i]?) = rows.filter p := by
  induction rows using List.reverseRecOn with
  | nil => rfl
  | append_singleton rows r ih =>
    have hbefore : ∀ i ∈ List.range rows.length, (rows ++ [r])[i]? = rows[i]? := fun i hi =>
      List.getElem?_append_left (List.mem_range.1 hi)
    have hlast : (rows ++ [r])[rows.length]? = some r := by
      rw [List.getElem?_append_right (Nat.le_refl _), Nat.sub_self]
      rfl
    rw [length_append, length_singleton, List.range_succ, List.filter_append, List.filterMap_append, List.filter_append,
      List.filter_singleton, hlast, Option.any_some, List.filter_congr (fun i hi => by rw [hbefore i hi]),
      List.filterMap_congr (fun i hi => hbefore i (List.mem_filter.1 hi).1), ih, List.filter_singleton]
    cases p r with
    | true =>
      rw [cond_true, cond_true, List.filterMap_cons, hlast]
      rfl
    | false => rfl

theorem rows_group (col : Nat) (rows : List Inner) (key : Bytes) :
    (group (keyAt col rows) rows.length key).filterMap (fun i => rows[i]?) =
      rows.filter (fun r => decide (groupKey (r col) = some key)) := by
  rw [← filterMap_group, group]
  congr 1
  refine List.filter_congr (fun i _ => ?_)
  rw [keyAt]
  cases rows[i]? with
  | none => rfl
  | some r => rfl

end HashJoin
end Gbasic
