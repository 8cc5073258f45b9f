import Gbasic.SqlRows
/-!
# SqlForeign — what the checks of a foreign key find

A row's values find a parent's row where the parent has the key they make.  `fkCheckChild` looks for it with the values
set at the parent's key columns and read from the first columns on, which is the key they make where the key's columns
are the first ones in order (`KeyInOrder`); `fkCheckParent` finds every child's row with the parent's old key, whatever
letters the key leaves out.
-/
namespace Gbasic
namespace Gsql

open Engine (Trees Tree Bytes)
open Key (SER_NULL SER_UNKNOWN)

/-- The values a child's row has for a foreign key. -/
def Binding.values (b : Binding) (v : Vals) : List Bytes := b.cpos.map (fun c => v.getD c [])

/-- A row with no absent value for a foreign key has a parent's row with the key its values make. -/
def Finds (t : Trees) (b : Binding) (v : Vals) : Prop :=
  (b.values v).any isAbsentBytes = false →
    ∃ k m, rowKey b.parent ((b.values v).map some) = .ok k ∧ t b.parent.rowsTree = some m ∧ (m.get k).isSome

def KeyInOrder (tb : Table) : Prop := (∀ i < tb.key.length, i ∈ tb.key) → tb.key = List.range tb.key.length

section
variable {t : Trees} {tb child parent : Table} {db db' : Db} {k : FkRec} {b : Binding} {v : Vals} {vals : List Bytes}
  {want : Bytes}

/-! ## Bindings -/

structure Bound (db : Db) (k : FkRec) (child : Table) (b : Binding) : Prop where
  opened : tableOpen db k.ref = .ok b.parent
  ppos : b.ppos = b.parent.key
  length : b.cpos.length = b.parent.key.length
  kinds : ∀ p ∈ b.cpos.zip b.parent.key, (child.col p.1).kind = (b.parent.col p.2).kind ∧
    (child.col p.1).currency = (b.parent.col p.2).currency

theorem length_of_mapM_some {α β : Type} {f : α → Option β} : ∀ {l : List α} {l' : List β}, l.mapM f = some l' →
    l'.length = l.length
  | [], l', h => by
    rw [List.mapM_nil] at h
    cases h
    rfl
  | a :: l, l', h => by
    rw [List.mapM_cons] at h
    rcases ha : f a with _ | b <;> rw [ha] at h
    · cases h
    rcases hl : l.mapM f with _ | l₂ <;> rw [hl] at h
    · cases h
    cases h
    rw [List.length_cons, List.length_cons, length_of_mapM_some hl]

theorem fkBound_some (h : fkBound db k child = some b) : Bound db k child b := by
  unfold fkBound at h
  split_ifs at h
  unfold fkBind at h
  split at h
  · cases h
  rename_i cpos hcpos
  split at h
  · cases h
  rename_i parent hparent
  split_ifs at h with hnot hall
  cases h
  rw [not_or, not_not, not_not] at hnot
  refine ⟨hparent, rfl, (length_of_mapM_some hcpos).trans hnot.2.symm, fun p hp => ?_⟩
  simpa using List.all_eq_true.1 hall p hp

theorem tableOpen_congr (h : db'.catalog = db.catalog) (name : Bytes) : tableOpen db' name = tableOpen db name := by
  rw [tableOpen, tableOpen, catalogGet, catalogGet, h]

theorem fkBound_congr (h : db'.catalog = db.catalog) (k : FkRec) (child : Table) :
    fkBound db' k child = fkBound db k child := by
  rw [fkBound, fkBound, fkBind, fkBind, tableOpen_congr h]

theorem Binding.length_values (hb : Bound db k child b) (v : Vals) : (b.values v).length = b.parent.key.length := by
  rw [Binding.values, List.length_map, hb.length]

theorem InColumn.congr {c c' : Column} {x : Bytes} (hkind : c'.kind = c.kind) (hcur : c'.currency = c.currency)
    (h : InColumn c x) : InColumn c' x := by
  refine ⟨h.reads, fun hk hc htag => ?_⟩
  rw [hcur] at hc ⊢
  exact h.currency (hkind ▸ hk) hc htag

theorem Bound.inColumn (hb : Bound db k child b) (hv : ∀ i, InColumn (child.col i) (v.getD i [])) :
    ∀ p ∈ (b.parent.key.map b.parent.col).zip (b.values v), InColumn p.1 p.2 := by
  intro p hp
  rw [Binding.values, List.zip_map] at hp
  obtain ⟨⟨i, c⟩, hq, rfl⟩ := List.mem_map.1 hp
  have hq' : (c, i) ∈ b.cpos.zip b.parent.key := by
    obtain ⟨n, hn, he⟩ := List.mem_iff_getElem.1 hq
    rw [List.getElem_zip] at he
    cases he
    rw [List.length_zip] at hn
    exact List.mem_iff_getElem.2 ⟨n, by rw [List.length_zip]; omega, by rw [List.getElem_zip]⟩
  obtain ⟨hkind, hcur⟩ := hb.kinds _ hq'
  exact InColumn.congr hkind.symm hcur.symm (hv c)

/-! ## Looking for a parent -/

theorem isAbsentBytes_stored (x : Bytes) : isAbsentBytes (stored x) = isAbsentBytes x := by
  unfold stored
  split_ifs with hx
  · rw [hx]
    rfl
  · rfl

theorem values_stored (b : Binding) (v : Vals) : b.values (v.map stored) = (b.values v).map stored := by
  rw [Binding.values, Binding.values, List.map_map]
  apply List.map_congr_left
  intro c _
  exact getD_stored v c

theorem rowKeyFrom_stored (tb : Table) : ∀ (key : List Nat) (vals : List Bytes) (k : Bytes),
    rowKeyFrom tb key ((vals.map stored).map some) k = rowKeyFrom tb key (vals.map some) k
  | [], _, _ => rfl
  | i :: key, [], k => rfl
  | i :: key, x :: vals, k => by
    rw [rowKeyFrom, rowKeyFrom]
    simp only [List.map_cons, List.headD_cons, Option.bind_some, List.tail_cons, keyComponent_stored]
    split
    · exact rowKeyFrom_stored tb key vals _
    · rfl

theorem finds_stored (t : Trees) (b : Binding) (v : Vals) : Finds t b (v.map stored) ↔ Finds t b v := by
  have habsent : (b.values (v.map stored)).any isAbsentBytes = (b.values v).any isAbsentBytes := by
    rw [values_stored, List.any_map]
    congr 1
    funext x
    exact isAbsentBytes_stored x
  have hkey : rowKey b.parent ((b.values (v.map stored)).map some) = rowKey b.parent ((b.values v).map some) := by
    rw [values_stored, rowKey, rowKey, rowKeyFrom_stored]
  rw [Finds, Finds, habsent, hkey]

theorem foldl_set_other {j : Nat} : ∀ (ps : List (Nat × Option Bytes)) (l : List (Option Bytes)), (∀ p ∈ ps, p.1 ≠ j) →
    (ps.foldl (fun l p => l.set p.1 p.2) l).getD j none = l.getD j none
  | [], _, _ => rfl
  | p :: ps, l, h => by
    rw [List.foldl_cons, foldl_set_other ps _ (fun q hq => h q (List.mem_cons_of_mem _ hq)),
      List.getD_eq_getElem?_getD, List.getD_eq_getElem?_getD, List.getElem?_set_ne (h p (List.mem_cons_self ..))]

theorem placed_other {n i : Nat} {pos : List Nat} (h : i ∉ pos) (vals : List (Option Bytes)) :
    (placed n pos vals).getD i none = none := by
  unfold placed
  have hother : ∀ p ∈ pos.zip vals, p.1 ≠ i := by
    rintro p hp rfl
    exact h (List.of_mem_zip hp).1
  rw [foldl_set_other _ _ hother, List.getD_eq_getElem?_getD, List.getElem?_replicate]
  split_ifs <;> rfl

theorem foldl_set_range {j : Nat} : ∀ (n s : Nat) (vals l : List (Option Bytes)), s ≤ j → j < s + n →
    vals.length = n → j < l.length →
    (((List.range' s n).zip vals).foldl (fun l p => l.set p.1 p.2) l).getD j none = vals.getD (j - s) none
  | 0, s, _, _, hs, hj, _, _ => by omega
  | n + 1, s, [], _, _, _, hlen, _ => by cases hlen
  | n + 1, s, a :: vals, l, hs, hj, hlen, hl => by
    rw [List.range'_succ, List.zip_cons_cons, List.foldl_cons]
    by_cases hjs : j = s
    · subst hjs
      have hother : ∀ p ∈ (List.range' (j + 1) n).zip vals, p.1 ≠ j := by
        intro p hp he
        have hmem := List.mem_range'_1.1 (List.of_mem_zip hp).1
        omega
      rw [foldl_set_other _ _ hother, Nat.sub_self, List.getD_eq_getElem?_getD, List.getElem?_set_self hl]
      rfl
    · rw [foldl_set_range n (s + 1) vals _ (by omega) (by omega) (Nat.succ.inj hlen) (by simpa using hl)]
      obtain ⟨i, hi⟩ : ∃ i, j - s = i + 1 := ⟨j - s - 1, by omega⟩
      rw [hi, show j - (s + 1) = i by omega]
      rfl

theorem rowKeyFrom_present : ∀ {key : List Nat} {vals : List (Option Bytes)} {k k' : Bytes},
    rowKeyFrom tb key vals k = .ok k' → ∀ j < key.length, vals.getD j none ≠ none
  | [], _, _, _, _, j, hj => by simp at hj
  | i :: key, vals, k, k', h, j, hj => by
    rw [rowKeyFrom] at h
    split at h
    · rename_i k₁ hk₁
      cases vals with
      | nil => cases hk₁
      | cons a vals =>
        cases j with
        | zero =>
          intro ha
          rw [List.getD_cons_zero] at ha
          subst ha
          cases hk₁
        | succ j => exact rowKeyFrom_present h j (by simpa using hj)
    · cases h

theorem rowKeyFrom_first : ∀ {key : List Nat} {vals vals' : List (Option Bytes)} {k : Bytes},
    (∀ j < key.length, vals.getD j none = vals'.getD j none) → rowKeyFrom tb key vals k = rowKeyFrom tb key vals' k
  | [], _, _, _, _ => rfl
  | i :: key, vals, vals', k, h => by
    have hhead : ∀ l : List (Option Bytes), l.headD none = l.getD 0 none := by
      intro l
      cases l <;> rfl
    have htail : ∀ (l : List (Option Bytes)) (j : Nat), l.tail.getD j none = l.getD (j + 1) none := by
      intro l j
      cases l <;> rfl
    rw [rowKeyFrom, rowKeyFrom, hhead vals, hhead vals', h 0 (by simp)]
    split
    · refine rowKeyFrom_first (fun j hj => ?_)
      rw [htail, htail]
      exact h (j + 1) (by simpa using hj)
    · rfl

/-- **What is found is there**, where the parent's key is in order. -/
theorem fkParentHas_true (hfit : ∀ i ∈ parent.key, i < parent.ncols) (hord : KeyInOrder parent)
    (hlen : vals.length = parent.key.length) (habsent : vals.any isAbsentBytes = false)
    (h : fkParentHas t parent parent.key vals = .ok true) :
    ∃ k m, rowKey parent (vals.map some) = .ok k ∧ t parent.rowsTree = some m ∧ (m.get k).isSome := by
  unfold fkParentHas at h
  rw [if_neg (by rw [habsent]; exact Bool.false_ne_true)] at h
  split at h
  · cases h
  rename_i k hk
  have hkey : rowKey parent (vals.map some) = .ok k := by
    rw [← hk]
    unfold rowKey at hk ⊢
    split_ifs at hk ⊢ with hnil
    -- every one of the first columns is set, so they are the key's
    have hset : ∀ i < parent.key.length, i ∈ parent.key := by
      intro i hi
      by_contra hnot
      exact rowKeyFrom_present hk i hi (placed_other hnot _)
    have hrange := hord hset
    have hn : parent.key.length ≤ parent.ncols := by
      by_contra hlt
      have hmem := hset parent.ncols (by omega)
      exact absurd (hfit _ hmem) (lt_irrefl _)
    refine rowKeyFrom_first (fun j hj => ?_)
    have hplaced := foldl_set_range parent.key.length 0 (vals.map some) (List.replicate parent.ncols none)
      (Nat.zero_le j)
      (by omega) (by simpa using hlen) (by rw [List.length_replicate]; omega)
    rw [← List.range_eq_range', ← hrange] at hplaced
    exact hplaced.symm
  split at h
  · rename_i row hrow
    obtain ⟨-, m, hm, hg⟩ := rowGet_ok hrow
    exact ⟨k, m, hkey, hm, by rw [hg]; rfl⟩
  · split_ifs at h
    cases h

/-! ## Looking for a child -/

theorem fkCount_zero {cpos : List Nat} : ∀ {rows : List (Bytes × Bytes)}, fkCount child cpos want rows = .ok 0 →
    ∀ key row v, (key, row) ∈ rows → rowDecode child row = .ok v →
    (cpos.map (fun c => v.getD c [])).any isAbsentBytes = false → fkKey (cpos.map (fun c => v.getD c [])) ≠ some want
  | [], _, _, _, _, hmem, _, _ => by cases hmem
  | (key₀, row₀) :: rows, h, key, row, v, hmem, hdec, habsent => by
    rw [fkCount] at h
    split at h
    · cases h
    rename_i vals hvals
    split at h
    · cases h
    rename_i n hrest
    rcases List.mem_cons.1 hmem with he | hmem
    · cases he
      have hv : vals = cpos.map (fun c => v.getD c []) := by
        have hall := mapM_ok hvals
        clear hvals h habsent hmem hrest
        induction hall with
        | nil => rfl
        | cons hone _ ih =>
          unfold rowValue at hone
          split_ifs at hone
          rw [hdec] at hone
          cases hone
          rw [List.map_cons, ← ih]
      rw [← hv] at habsent ⊢
      intro hkey
      rw [if_pos ⟨by rw [habsent]; exact Bool.false_ne_true, hkey⟩] at h
      cases h
    · refine fkCount_zero ?_ key row v hmem hdec habsent
      rw [hrest]
      split_ifs at h
      · cases h
      · exact h

theorem fkWalk_zero {m : Tree} {cpos : List Nat} (hm : t child.rowsTree = some m)
    (h : fkWalk t child cpos want = .ok 0) {key row : Bytes} (hk : m.get key = some row)
    (hdec : rowDecode child row = .ok v) (habsent : (cpos.map (fun c => v.getD c [])).any isAbsentBytes = false) :
    fkKey (cpos.map (fun c => v.getD c [])) ≠ some want := by
  unfold fkWalk at h
  rw [Engine.treeFind_some child.rowsTree_short hm] at h
  exact fkCount_zero h key row v (SortedMap.get_eq_some_iff.1 hk) hdec habsent

/-! ## The checks -/

theorem fkCheckChild_finds {fks : List FkRec} (h : fkCheckChild db fks child v = .ok ()) (hk : k ∈ fks)
    (henf : k.enforced = true) (hbound : k.bound = true) (hname : k.table = child.name)
    (hb : fkBound db k child = some b) (hfit : ∀ i ∈ b.parent.key, i < b.parent.ncols) (hord : KeyInOrder b.parent) :
    Finds db.trees b v := by
  intro habsent
  have hbd := fkBound_some hb
  have hone := checkAll_ok h k hk
  rw [if_neg (by simp [henf, hbound, hname]), hb] at hone
  dsimp only at hone
  split at hone
  · cases hone
  · rename_i hhas
    rw [hbd.ppos] at hhas
    exact fkParentHas_true hfit hord (Binding.length_values hbd v) habsent hhas
  · cases hone

theorem fkCheckParent_unreferenced {fks : List FkRec} {m : Tree} {old cv : Vals} {key row : Bytes}
    (h : fkCheckParent db fks parent old = .ok ()) (hk : k ∈ fks) (henf : k.enforced = true) (hbound : k.bound = true)
    (hname : k.ref = parent.name) (hchild : tableOpen db k.table = .ok child) (hb : fkBound db k child = some b)
    (hm : db.trees child.rowsTree = some m) (hrow : m.get key = some row) (hdec : rowDecode child row = .ok cv)
    (habsent : (b.values cv).any isAbsentBytes = false)
    (hwant : fkKey (b.ppos.map (fun c => old.getD c [])) = some want) : fkKey (b.values cv) ≠ some want := by
  have hone := checkAll_ok h k hk
  rw [if_neg (by simp [henf, hbound, hname]), hchild] at hone
  dsimp only at hone
  rw [hb] at hone
  dsimp only at hone
  rw [hwant] at hone
  dsimp only at hone
  split at hone
  · cases hone
  · rename_i hwalk
    exact fkWalk_zero hm hwalk hrow hdec habsent
  · cases hone

end

end Gsql
end Gbasic
