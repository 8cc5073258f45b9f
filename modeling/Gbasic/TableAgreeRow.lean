import Gbasic.TableAgree
import Gbasic.TableAtomic
/-!
# TableAgreeRow — a row operation keeps a table's trees in step

The row's write and each index's are changes to a map and to one made from it.  A new entry has its place to itself
(`fresh`): a unique one was looked for, and any other names its row.  `InsertMeets` and `UpdateMeets` are what the
checks leave out, a key past the engine's limit and money that does not read back; a delete asks nothing.
-/
namespace Gbasic
namespace Gsql

open Lsm (Status GS_MAX_KEY)
open Engine (Trees Tree Bytes Room Present Vacant)
open SortedMap (Indexed)
open Engine (put_room set_self set_of_ne get_eq_ok)

variable {i : Tree} {vals : List (Option Bytes)}

def InsertMeets (t : Trees) (tb : Table) (vals : List (Option Bytes)) : Prop :=
  ∀ c, insertChecks t tb vals = .ok c → Vacant t tb.rowsTree c.key →
    ∀ p ∈ c.entries, p.2.key.length ≤ GS_MAX_KEY ∧ IndexReads tb p.1 c.vals

def UpdateMeets (t : Trees) (tb : Table) (rowkey : Bytes) (vals : List (Option Bytes)) : Prop :=
  ∀ u, updateChecks t tb rowkey vals = .ok u →
    (u.key ≠ rowkey → u.key.length ≤ GS_MAX_KEY) ∧
    ∀ c ∈ u.changes, (u.key = rowkey ∧ c.old = c.new ∨ c.new.key.length ≤ GS_MAX_KEY) ∧ IndexReads tb c.index u.vals

structure Confined (tb : Table) (t t' : Trees) : Prop where
  same : ∀ n, n ∉ tb.treeNames → n ≠ META → t' n = t n
  serial : t' tb.serialTree = t tb.serialTree
  shared : (t META).isSome → (t' META).isSome

section
variable {t t' : Trees} {tb : Table} {m m' : Tree} {x : Index} {k rowkey row : Bytes} {v : Vals} {e : Entry}
  {es : List (Index × Entry)}

theorem Confined.refl (tb : Table) (t : Trees) : Confined tb t t := ⟨fun _ _ _ => rfl, rfl, id⟩

theorem serialTree_ne_rowsTree (tb tb' : Table) : tb.serialTree ≠ tb'.rowsTree := by
  intro h
  simp only [Table.rowsTree, Table.serialTree, treeName, List.cons.injEq] at h
  exact absurd h.2.1 (by decide)

theorem serialTree_ne_tree (tb : Table) (x : Index) : tb.serialTree ≠ x.tree := by
  intro h
  simp only [Table.serialTree, Index.tree, treeName, List.cons.injEq] at h
  exact absurd h.2.1 (by decide)

theorem rowsTree_not_index : tb.rowsTree ∉ tb.idx.map Index.tree := by
  intro hmem
  obtain ⟨x, -, hx⟩ := List.mem_map.1 hmem
  exact rowsTree_ne_tree tb x hx.symm

theorem serialTree_not_index : tb.serialTree ∉ tb.idx.map Index.tree := by
  intro hmem
  obtain ⟨x, -, hx⟩ := List.mem_map.1 hmem
  exact serialTree_ne_tree tb x hx.symm

theorem META_not_index : META ∉ tb.idx.map Index.tree := by
  intro hmem
  obtain ⟨x, -, hx⟩ := List.mem_map.1 hmem
  exact META_ne_treeName 'i' x.id hx.symm

theorem Confined.of_trees (h : ∀ n, n ≠ tb.rowsTree → n ∉ tb.idx.map Index.tree → n ≠ META → t' n = t n)
    (hshared : (t META).isSome → (t' META).isSome) : Confined tb t t' where
  same n hn hmeta := by
    refine h n (fun he => hn (mem_treeNames.2 (.inl he))) (fun he => ?_) hmeta
    obtain ⟨x, hx, rfl⟩ := List.mem_map.1 he
    exact hn (mem_treeNames.2 (.inr (.inr ⟨x, hx, rfl⟩)))
  serial := h _ (serialTree_ne_rowsTree tb tb) serialTree_not_index (META_ne_treeName 'q' tb.id).symm
  shared := hshared

/-! ## A row's entries -/

theorem entriesBuild_mem (h : entriesBuild tb v k = .ok es) :
    ∀ p ∈ es, p.1 ∈ tb.idx ∧ indexEntry tb p.1 v k = some p.2 := by
  have hfrom : ∀ (idx : List Index) (es : List (Index × Entry)), entriesFrom tb v k idx = .ok es →
      ∀ p ∈ es, p.1 ∈ idx ∧ indexEntry tb p.1 v k = some p.2 := by
    intro idx
    induction idx with
    | nil =>
      intro es h p hp
      cases h
      cases hp
    | cons x idx ih =>
      intro es h p hp
      rw [entriesFrom] at h
      split at h
      · cases h
      rename_i e he
      split at h
      · cases h
      rename_i es' hrest
      cases h
      rcases List.mem_cons.1 hp with rfl | hp
      · exact ⟨List.mem_cons_self .., he⟩
      · obtain ⟨hmem, hp'⟩ := ih es' hrest p hp
        exact ⟨List.mem_cons_of_mem _ hmem, hp'⟩
  exact hfrom tb.idx es h

theorem entriesBuild_of_mem (h : entriesBuild tb v k = .ok es) (hx : x ∈ tb.idx) : ∃ e, (x, e) ∈ es := by
  rw [← entriesBuild_indexes h] at hx
  obtain ⟨⟨x', e⟩, hp, rfl⟩ := List.mem_map.1 hx
  exact ⟨e, hp⟩

theorem uniquesTaken_ok {self : Option Bytes} : ∀ {i : Nat} {es : List (Index × Entry)},
    uniquesTaken t tb self i es = .ok () → ∀ p ∈ es, p.2.uniqueForm = true → ∀ got,
    Engine.get t p.1.tree p.2.key = .ok got → self = some got
  | _, [], _, p, hp, _, _, _ => by cases hp
  | i, (x, e) :: es, h, p, hp, hform, got, hgot => by
    rw [uniquesTaken] at h
    split at h
    · cases h
    rename_i htaken
    rcases List.mem_cons.1 hp with rfl | hp
    · unfold uniqueTaken at htaken
      rw [if_pos hform, hgot] at htaken
      dsimp only at htaken
      split_ifs at htaken with hself
      exact hself
    · exact uniquesTaken_ok h p hp hform got hgot

theorem readable_stored {fl : Key.KeyFlags} {y : Bytes} (h : Key.Readable fl y) : Key.Readable fl (stored y) := by
  unfold stored
  split_ifs
  · intro htag
    exact absurd htag (by decide)
  · exact h

theorem indexReads_stored (h : IndexReads tb x v) : IndexReads tb x (v.map stored) := by
  intro p hp
  rw [getD_stored]
  exact readable_stored (h p hp)

theorem Whole.stored (hw : Whole tb v) : Whole tb (v.map stored) := by
  refine ⟨by rw [List.length_map, hw.length], fun y hy => ?_⟩
  obtain ⟨z, hz, rfl⟩ := List.mem_map.1 hy
  exact stored_whole (hw.values z hz)

theorem keyOf_stored (hkey : KeyOf tb v k) : KeyOf tb (v.map stored) k := by
  unfold KeyOf at hkey ⊢
  rw [primaryKey_stored]
  exact hkey

theorem rowOk_encode (hok : tb.Ok) (hw : Whole tb v) (hkey : KeyOf tb v k) (hk : k.length ≤ GS_MAX_KEY)
    (hes : entriesBuild tb v k = .ok es) (hreads : ∀ p ∈ es, IndexReads tb p.1 v) :
    RowOk tb k (rowEncode tb v) (v.map stored) where
  decoded := rowDecode_rowEncode (lt_of_le_of_lt hok.cols (by decide)) hw
  whole := hw.stored
  key := keyOf_stored hkey
  short := hk
  reads x hx := by
    obtain ⟨e, he⟩ := entriesBuild_of_mem hes hx
    exact indexReads_stored (hreads _ he)
  entry x hx := by
    obtain ⟨e, he⟩ := entriesBuild_of_mem hes hx
    rw [← entriesBuild_stored] at hes
    simp [(entriesBuild_mem hes _ he).2]

/-! ## One index -/

theorem fresh (hrow : ∀ k row, m.get k = some row → ∃ v, RowOk tb k row v)
    (hi : Indexed (entryOf tb x) (leadsTo tb x) m i) (hx : x ∈ tb.idx) (hnew : RowOk tb k row v) (hk : m.get k = none)
    (he : indexEntry tb x v k = some e) (hfree : e.uniqueForm = true → i.get e.key = none) : i.get e.key = none := by
  rcases hg : i.get e.key with _ | b
  · rfl
  exfalso
  obtain ⟨k', row', hk', he'⟩ := (hi.holds _ _).1 hg
  obtain ⟨v', hv'⟩ := hrow k' row' hk'
  rw [hv'.entryOf_eq] at he'
  obtain ⟨e', hentry, heq⟩ := Option.map_eq_some_iff.1 he'
  obtain ⟨hkey, rfl⟩ := Prod.mk.inj heq
  have hform := uniqueForm_eq hnew.whole.values hv'.whole.values (hnew.reads x hx) (hv'.reads x hx) he hentry hkey.symm
  by_cases hu : e.uniqueForm = true
  · rw [hfree hu] at hg
    cases hg
  · -- neither holds a value, so both lead to one row
    have hvalue : e.value k = e'.value k' := by
      unfold Entry.value
      rw [if_neg hu, if_neg (hform ▸ hu)]
    have hsame := entry_injective hnew.whole.values hv'.whole.values (hnew.reads x hx) (hv'.reads x hx) he hentry
      hkey.symm hvalue
    rw [hsame, hk'] at hk
    cases hk

theorem rows_put (hrow : ∀ k row, m.get k = some row → ∃ v, RowOk tb k row v) (hnew : RowOk tb k row v) :
    ∀ k' row', (m.put k row).get k' = some row' → ∃ v, RowOk tb k' row' v := by
  intro k' row' hk'
  rw [SortedMap.get_put] at hk'
  split_ifs at hk' with he
  · cases hk'
    exact ⟨v, he ▸ hnew⟩
  · exact hrow k' row' hk'

theorem rows_del (hrow : ∀ k row, m.get k = some row → ∃ v, RowOk tb k row v) :
    ∀ k' row', (m.del k).get k' = some row' → ∃ v, RowOk tb k' row' v := by
  intro k' row' hk'
  rw [SortedMap.get_del] at hk'
  split_ifs at hk'
  exact hrow k' row' hk'

theorem short_put {a b : Bytes} (h : ∀ a b, i.get a = some b → a.length ≤ GS_MAX_KEY) (ha : a.length ≤ GS_MAX_KEY) :
    ∀ a' b', (i.put a b).get a' = some b' → a'.length ≤ GS_MAX_KEY := by
  intro a' b' hg
  rw [SortedMap.get_put] at hg
  split_ifs at hg with he
  · exact he ▸ ha
  · exact h a' b' hg

theorem short_del {a : Bytes} (h : ∀ a b, i.get a = some b → a.length ≤ GS_MAX_KEY) :
    ∀ a' b', (i.del a).get a' = some b' → a'.length ≤ GS_MAX_KEY := by
  intro a' b' hg
  rw [SortedMap.get_del] at hg
  split_ifs at hg
  exact h a' b' hg

theorem indexed_put (hrow : ∀ k row, m.get k = some row → ∃ v, RowOk tb k row v)
    (hi : Indexed (entryOf tb x) (leadsTo tb x) m i) (hx : x ∈ tb.idx) (hnew : RowOk tb k row v) (hk : m.get k = none)
    (he : indexEntry tb x v k = some e) (hfree : e.uniqueForm = true → i.get e.key = none) :
    Indexed (entryOf tb x) (leadsTo tb x) (m.put k row) (i.put e.key (e.value k)) := by
  have hentry : entryOf tb x k row = some (e.key, e.value k) := by rw [hnew.entryOf_eq, he]; rfl
  have hback : leadsTo tb x (e.key, e.value k) = some k := leadsTo_entry hnew.whole (hnew.reads x hx) he
  exact hi.put hk hentry hback (fresh hrow hi hx hnew hk he hfree)

theorem entry_present (h : TableHolds t tb m) (hk : m.get k = some row) (hv : rowDecode tb row = .ok v)
    (hx : x ∈ tb.idx) (he : indexEntry tb x v k = some e) : Present t x.tree e.key := by
  obtain ⟨i, hi, hheld, hshort⟩ := h.index x hx
  obtain ⟨v', hv'⟩ := h.row k row hk
  have hvv : v' = v := Except.ok.inj (hv'.decoded.symm.trans hv)
  subst hvv
  have hin : i.get e.key = some (e.value k) := (hheld.holds _ _).2 ⟨k, row, hk, by rw [hv'.entryOf_eq, he]; rfl⟩
  exact ⟨hshort _ _ hin, i, hi, by simp [hin]⟩

end

/-! ## Inserting -/

theorem insertChecks_found {t : Trees} {tb : Table} {c : Checked} (h : insertChecks t tb vals = .ok c) :
    Whole tb c.vals ∧ KeyOf tb c.vals c.key ∧ uniquesTaken t tb none 0 c.entries = .ok () := by
  unfold insertChecks at h
  split at h
  · cases h
  rename_i v hres
  split at h
  · cases h
  rename_i k rowid hkey
  split at h
  · cases h
  split at h
  · cases h
  rename_i huniq
  cases h
  refine ⟨resolve_whole hres, ?_, huniq⟩
  unfold insertKey at hkey
  unfold KeyOf
  by_cases hnil : tb.key = []
  · rw [if_neg (not_not.2 hnil)] at hkey
    rw [if_pos hnil]
    split at hkey
    · cases hkey
    rename_i id _
    exact ⟨id, (Prod.mk.inj (Except.ok.inj hkey)).1.symm⟩
  · rw [if_pos hnil] at hkey
    rw [if_neg hnil]
    split at hkey
    · cases hkey
    rename_i hpk
    split at hkey <;> cases hkey
    exact hpk

/-- What is written past the checks, where it fits. -/
theorem insertRest_leaves {t : Trees} {tb : Table} {c : Checked} (hok : tb.Ok)
    (hes : entriesBuild tb c.vals c.key = .ok c.entries) (hroom : ∀ p ∈ c.entries, Room t p.1.tree p.2.key)
    (hmeta : (t META).isSome) :
    (∀ p ∈ c.entries, (insertRest t tb c).2 p.1.tree =
      (t p.1.tree).map (fun i => i.put p.2.key (p.2.value c.key))) ∧
    (∀ n, n ∉ tb.idx.map Index.tree → n ≠ META → (insertRest t tb c).2 n = t n) ∧
    ((insertRest t tb c).2 META).isSome := by
  have hnd := nodup_entries hok hes
  have htrees : c.entries.map (fun p => p.1.tree) = tb.idx.map Index.tree := by
    rw [← entriesBuild_indexes hes, List.map_map]
    rfl
  have hdone := (inTurn_ok (put_writes c.key) c.entries t hnd).2 hroom
  have hleaves := inTurn_tree (put_writes c.key) (fun t p h => putEntry_leaves p h) c.entries t hnd hroom
  have hsame : ∀ n, n ∉ tb.idx.map Index.tree → (inTurn (fun t p => putEntry t p.1 p.2 c.key) t c.entries).2 n = t n :=
    fun n hn => inTurn_same (put_writes c.key) c.entries t n (htrees ▸ hn)
  unfold insertRest putEntries
  rcases hput : inTurn (fun t p => putEntry t p.1 p.2 c.key) t c.entries with ⟨r, t₂⟩
  rw [hput] at hdone hleaves hsame
  dsimp only at hdone hleaves hsame
  subst hdone
  rw [hput]
  dsimp only
  have hmeta₂ : (t₂ META).isSome := by rw [hsame META META_not_index]; exact hmeta
  by_cases hkey : tb.key = []
  · rw [if_pos hkey]
    have hother : ∀ n, n ≠ META → (metaPut t₂ (metaTableKey tb) (c.rowid + 1)).2 n = t₂ n := fun n hn => metaPut_same hn
    obtain ⟨i, hi⟩ := Option.isSome_iff_exists.1 hmeta₂
    have hnow : ((metaPut t₂ (metaTableKey tb) (c.rowid + 1)).2 META).isSome := by
      rw [metaPut, put_room META_short (metaTableKey_short tb) hi]
      dsimp only
      rw [set_self]
      rfl
    rcases hm : metaPut t₂ (metaTableKey tb) (c.rowid + 1) with ⟨_ | ⟨⟩, t₃⟩ <;> rw [hm] at hother hnow
    all_goals
      dsimp only at hother hnow ⊢
      refine ⟨fun p hp => ?_, fun n hn hmeta => ?_, hnow⟩
      · rw [hother p.1.tree (META_ne_treeName 'i' p.1.id).symm]
        exact hleaves p hp
      · rw [hother n hmeta, hsame n hn]
  · rw [if_neg hkey]
    exact ⟨hleaves, fun n hn _ => hsame n hn, hmeta₂⟩

/-- **An insert that meets the limit keeps the table's trees in step, refused or not.** -/
theorem rowInsert_holds {t : Trees} {tb : Table} {m : Tree} (h : TableHolds t tb m) (hmeta : (t META).isSome)
    (hmeets : InsertMeets t tb vals) :
    ∃ m', TableHolds (rowInsert t tb vals).2 tb m' ∧ Confined tb t (rowInsert t tb vals).2 := by
  unfold rowInsert
  rcases hc : insertChecks t tb vals with e | c
  · exact ⟨m, h, Confined.refl tb t⟩
  dsimp only
  by_cases hv : Vacant t tb.rowsTree c.key
  swap
  · rw [insertWrites_refused hv]
    exact ⟨m, h, Confined.refl tb t⟩
  have hmeets := hmeets c hc hv
  obtain ⟨hw, hkey, huniq⟩ := insertChecks_found hc
  have hes := insertChecks_entries hc
  obtain ⟨hk, m₀, hm₀, hvacant⟩ := id hv
  rw [h.rows] at hm₀
  cases hm₀
  have hnew := rowOk_encode h.ok hw hkey hk hes (fun p hp => (hmeets p hp).2)
  let t₁ := t.set tb.rowsTree (some (m.put c.key (rowEncode tb c.vals)))
  have hother : ∀ n, n ≠ tb.rowsTree → t₁ n = t n := fun n hn => set_of_ne t hn _
  have hwrites : insertWrites t tb c = insertRest t₁ tb c := by
    rw [insertWrites, Engine.put_vacant tb.rowsTree_short hk h.rows hvacant]
  have htree : ∀ x : Index, t₁ x.tree = t x.tree := fun x => hother _ (rowsTree_ne_tree tb x).symm
  have hroom : ∀ p ∈ c.entries, Room t₁ p.1.tree p.2.key := by
    intro p hp
    obtain ⟨i, hi, -⟩ := h.index p.1 (entriesBuild_mem hes p hp).1
    exact ⟨(hmeets p hp).1, by rw [htree, hi]; rfl⟩
  have hmeta₁ : (t₁ META).isSome := by rw [hother META (META_ne_treeName 'r' tb.id)]; exact hmeta
  obtain ⟨hleaves, hsame, hshared⟩ := insertRest_leaves h.ok hes hroom hmeta₁
  rw [hwrites]
  have hrows : (insertRest t₁ tb c).2 tb.rowsTree = some (m.put c.key (rowEncode tb c.vals)) :=
    insertRest_rows.trans (set_self ..)
  refine ⟨m.put c.key (rowEncode tb c.vals), ⟨h.ok, h.keyPos, h.idxPos, fun hs => ?_, hrows, rows_put h.row hnew,
    fun x hx => ?_⟩, Confined.of_trees (fun n hn hidx hmeta => ?_) (fun _ => hshared)⟩
  · rw [hsame _ serialTree_not_index (META_ne_treeName 'q' tb.id).symm, hother _ (serialTree_ne_rowsTree tb tb)]
    exact h.serial hs
  · obtain ⟨e, he⟩ := entriesBuild_of_mem hes hx
    obtain ⟨i, hi, hheld, hshort⟩ := h.index x hx
    have hstored := hes
    rw [← entriesBuild_stored] at hstored
    refine ⟨i.put e.key (e.value c.key), ?_, ?_, short_put hshort (hmeets _ he).1⟩
    · rw [hleaves _ he, htree, hi]
      rfl
    · refine indexed_put h.row hheld hx hnew hvacant (entriesBuild_mem hstored _ he).2 (fun hform => ?_)
      rcases hg : i.get e.key with _ | b
      · rfl
      · have hget : Engine.get t x.tree e.key = .ok b :=
          (get_eq_ok x.tree_short).2 ⟨(hmeets _ he).1, i, hi, hg⟩
        exact absurd (uniquesTaken_ok huniq _ he hform b hget) (by simp)
  · rw [hsame n hidx hmeta, hother n hn]

/-! ## Updating -/

theorem updateChecks_uniques {t : Trees} {tb : Table} {rowkey : Bytes} {u : Update}
    (h : updateChecks t tb rowkey vals = .ok u) :
    ∃ newe, entriesBuild tb u.vals u.key = .ok newe ∧ uniquesTaken t tb (some rowkey) 0 newe = .ok () := by
  unfold updateChecks at h
  iterate 6
    split at h
    · cases h
  rename_i newe hnews
  split at h
  · cases h
  rename_i huniq
  cases h
  exact ⟨newe, hnews, huniq⟩

theorem updateKey_keyOf {t : Trees} {tb : Table} {rowkey k : Bytes} {v oldv : Vals}
    (h : updateKey t tb rowkey v = .ok k) (hold : KeyOf tb oldv rowkey) : KeyOf tb v k := by
  unfold updateKey at h
  unfold KeyOf at hold ⊢
  by_cases hnil : tb.key = []
  · rw [if_neg (not_not.2 hnil)] at h
    rw [if_pos hnil] at hold ⊢
    simp only [ne_eq, not_true_eq_false, if_false] at h
    exact Except.ok.inj h ▸ hold
  · rw [if_pos hnil] at h
    rw [if_neg hnil]
    split at h
    · cases h
    rename_i k' hpk
    split_ifs at h with hmoved
    · split at h <;> cases h
      exact hpk
    · cases h
      exact hpk

theorem mem_changesOf {c : Change} : ∀ {olde newe : List (Index × Entry)}, olde.map (·.1) = newe.map (·.1) →
    c ∈ changesOf olde newe → (c.index, c.old) ∈ olde ∧ (c.index, c.new) ∈ newe
  | [], _, _, hc => by cases hc
  | _ :: _, [], h, _ => by cases h
  | (x, a) :: olde, (y, b) :: newe, h, hc => by
    obtain ⟨hxy, hrest⟩ := List.cons.inj h
    have hcons : changesOf ((x, a) :: olde) ((y, b) :: newe) = ⟨x, a, b⟩ :: changesOf olde newe := rfl
    rw [hcons] at hc
    rcases List.mem_cons.1 hc with rfl | hc
    · dsimp only at hxy
      exact ⟨List.mem_cons_self .., by rw [hxy]; exact List.mem_cons_self ..⟩
    · obtain ⟨h1, h2⟩ := mem_changesOf hrest hc
      exact ⟨List.mem_cons_of_mem _ h1, List.mem_cons_of_mem _ h2⟩

def movedRows (m : Tree) (rowkey : Bytes) (u : Update) (row : Bytes) : Tree :=
  if u.key = rowkey then m.put rowkey row else (m.del rowkey).put u.key row

theorem movedRows_eq (m : Tree) (rowkey : Bytes) (u : Update) (row : Bytes) :
    movedRows m rowkey u row = (m.del rowkey).put u.key row := by
  unfold movedRows
  split_ifs with h
  · rw [h]
    exact SortedMap.put_eq_put_del m rowkey row
  · rfl

theorem updateRow_leaves {t : Trees} {tb : Table} {m : Tree} {rowkey : Bytes} {u : Update} {oldrow : Bytes}
    {oldv : Vals} {olde newe : List (Index × Entry)} (h : UpdateFound t tb rowkey u oldrow oldv olde newe)
    (hm : t tb.rowsTree = some m) (hlen : u.key ≠ rowkey → u.key.length ≤ GS_MAX_KEY) :
    ∃ t₁, updateRow t tb rowkey u = (.ok, t₁) ∧ t₁ tb.rowsTree = some (movedRows m rowkey u (rowEncode tb u.vals)) ∧
      (m.del rowkey).get u.key = none ∧ ∀ n, n ≠ tb.rowsTree → t₁ n = t n := by
  obtain ⟨hk, m₀, hm₀, hg⟩ := rowGet_ok h.row
  rw [hm] at hm₀
  cases hm₀
  have hn := tb.rowsTree_short
  unfold updateRow movedRows
  by_cases hmoved : u.key ≠ rowkey
  · have hnone : (m.del rowkey).get u.key = none := by
      rw [SortedMap.get_del_of_ne m hmoved]
      rcases hfree : m.get u.key with _ | row
      · rfl
      · exact absurd ((get_eq_ok hn).2 ⟨hlen hmoved, m, hm, hfree⟩) (updateKey_free h.key hmoved)
    rw [if_pos hmoved, if_neg hmoved, Engine.del_present hn hk hm (by simp [hg])]
    dsimp only
    refine ⟨_, Engine.put_vacant hn (hlen hmoved) (set_self ..) hnone, set_self .., hnone, fun n hne => ?_⟩
    rw [set_of_ne _ hne, set_of_ne _ hne]
  · rw [if_neg hmoved, if_pos (not_not.1 hmoved), not_not.1 hmoved]
    exact ⟨_, put_room hn hk hm, set_self .., SortedMap.get_del_self .., fun n hne => set_of_ne _ hne _⟩

/-- **An update that meets the limit keeps the table's trees in step, refused or not.** -/
theorem rowUpdate_holds {t : Trees} {tb : Table} {m : Tree} {rowkey : Bytes} (h : TableHolds t tb m)
    (hmeets : UpdateMeets t tb rowkey vals) :
    ∃ m', TableHolds (rowUpdate t tb rowkey vals).2 tb m' ∧ Confined tb t (rowUpdate t tb rowkey vals).2 := by
  unfold rowUpdate
  rcases hu : updateChecks t tb rowkey vals with e | u
  · exact ⟨m, h, Confined.refl tb t⟩
  dsimp only
  obtain ⟨hlen, hmeets⟩ := hmeets u hu
  obtain ⟨oldrow, oldv, olde, newe, hfound⟩ := updateChecks_found hu
  obtain ⟨newe', hnews', huniq⟩ := updateChecks_uniques hu
  have hnn : newe' = newe := Except.ok.inj (hnews'.symm.trans hfound.news)
  subst hnn
  obtain ⟨hk, m₀, hm₀, hg⟩ := rowGet_ok hfound.row
  rw [h.rows] at hm₀
  cases hm₀
  obtain ⟨oldv', hold⟩ := h.row rowkey oldrow hg
  have hvv : oldv' = oldv := Except.ok.inj (hold.decoded.symm.trans hfound.decoded)
  subst hvv
  have hindexes : olde.map (·.1) = newe'.map (·.1) := by
    rw [entriesBuild_indexes hfound.olds, entriesBuild_indexes hfound.news]
  have hlenKey : u.key.length ≤ GS_MAX_KEY := by
    by_cases hmoved : u.key = rowkey
    · exact hmoved ▸ hk
    · exact hlen hmoved
  have hchange : ∀ x ∈ tb.idx, ∃ c ∈ u.changes, c.index = x := by
    intro x hx
    have hmap : u.changes.map Change.index = tb.idx := by
      rw [hfound.changes, changesOf_index (by simpa using (congrArg List.length hindexes).symm),
        entriesBuild_indexes hfound.olds]
    rw [← hmap] at hx
    obtain ⟨c, hc, rfl⟩ := List.mem_map.1 hx
    exact ⟨c, hc, rfl⟩
  have hmem : ∀ c ∈ u.changes, (c.index, c.old) ∈ olde ∧ (c.index, c.new) ∈ newe' :=
    fun c hc => mem_changesOf hindexes (hfound.changes ▸ hc)
  have hreads : ∀ p ∈ newe', IndexReads tb p.1 u.vals := by
    intro p hp
    obtain ⟨c, hc, hx⟩ := hchange p.1 (entriesBuild_mem hfound.news p hp).1
    exact hx ▸ (hmeets c hc).2
  have hnew := rowOk_encode h.ok hfound.whole (updateKey_keyOf hfound.key hold.key) hlenKey hfound.news hreads
  have hstored := hfound.news
  rw [← entriesBuild_stored] at hstored
  obtain ⟨t₁, hrow, hrows, hvacant, hother⟩ := updateRow_leaves hfound h.rows hlen
  rw [hrow]
  dsimp only
  have htree : ∀ x : Index, t₁ x.tree = t x.tree := fun x => hother _ (rowsTree_ne_tree tb x).symm
  have hnd := hfound.trees h.ok
  have hfits : ∀ c ∈ u.changes, ChangeFits (u.key ≠ rowkey) t₁ c := by
    intro c hc
    have hpresent : Present t c.index.tree c.old.key := by
      obtain ⟨hx, he⟩ := entriesBuild_mem hfound.olds _ (hmem c hc).1
      exact entry_present h hg hold.decoded hx he
    rcases (hmeets c hc).1 with ⟨hsame, hentry⟩ | hshort
    · exact .inl ⟨by simpa using hsame, hentry⟩
    · exact .inr ⟨(present_own (htree c.index)).2 hpresent, hshort⟩
  have hdone := (inTurn_ok (change_writes tb (u.key ≠ rowkey) u.key) u.changes t₁ hnd).2 hfits
  have hleaves := inTurn_tree (change_writes tb (u.key ≠ rowkey) u.key) (fun t c hc => changeEntry_leaves c hc)
    u.changes t₁ hnd hfits
  have htrees : u.changes.map (fun c => c.index.tree) = tb.idx.map Index.tree := by
    have hmap : u.changes.map (fun c => c.index.tree) = (u.changes.map Change.index).map Index.tree := by
      rw [List.map_map]
      rfl
    rw [hmap, hfound.changes, changesOf_index (by simpa using (congrArg List.length hindexes).symm),
      entriesBuild_indexes hfound.olds]
  have hsame : ∀ n, n ∉ tb.idx.map Index.tree →
      (inTurn (changeEntry tb (u.key ≠ rowkey) u.key) t₁ u.changes).2 n = t₁ n :=
    fun n hn => inTurn_same (change_writes tb (u.key ≠ rowkey) u.key) u.changes t₁ n (htrees ▸ hn)
  unfold updateEntries
  rcases hturn : inTurn (changeEntry tb (u.key ≠ rowkey) u.key) t₁ u.changes with ⟨r, t₂⟩
  rw [hturn] at hdone hleaves hsame
  dsimp only at hdone hleaves hsame
  subst hdone
  dsimp only
  refine ⟨movedRows m rowkey u (rowEncode tb u.vals), ⟨h.ok, h.keyPos, h.idxPos, fun hs => ?_, ?_, ?_, fun x hx => ?_⟩,
    Confined.of_trees (fun n hn hidx _ => ?_) (fun hmeta => ?_)⟩
  · rw [hsame _ serialTree_not_index, hother _ (serialTree_ne_rowsTree tb tb)]
    exact h.serial hs
  · rw [hsame _ rowsTree_not_index]
    exact hrows
  · rw [movedRows_eq]
    exact rows_put (rows_del h.row) hnew
  · obtain ⟨c, hc, rfl⟩ := hchange x hx
    obtain ⟨i, hi, hheld, hshort⟩ := h.index c.index hx
    have holdEntry : indexEntry tb c.index oldv' rowkey = some c.old := (entriesBuild_mem hfound.olds _ (hmem c hc).1).2
    have hnewEntry : indexEntry tb c.index (u.vals.map stored) u.key = some c.new :=
      (entriesBuild_mem hstored _ (hmem c hc).2).2
    have hleft := hleaves c hc
    rw [htree, hi, changedTree] at hleft
    by_cases hskip : (decide (u.key ≠ rowkey)) = false ∧ c.old = c.new
    · rw [if_pos hskip] at hleft
      have hkey : u.key = rowkey := by simpa using hskip.1
      refine ⟨i, hleft, ?_, hshort⟩
      rw [movedRows, if_pos hkey]
      refine hheld.same hg ?_
      have hnewOk := hnew
      rw [hkey] at hnewOk hnewEntry
      rw [hnewOk.entryOf_eq, hold.entryOf_eq, hnewEntry, holdEntry, hskip.2]
    · rw [if_neg hskip] at hleft
      have hnewShort : c.new.key.length ≤ GS_MAX_KEY := by
        rcases (hmeets c hc).1 with ⟨hkey, hentry⟩ | hshort
        · exact absurd ⟨by simpa using hkey, hentry⟩ hskip
        · exact hshort
      have hentry : entryOf tb c.index rowkey oldrow = some (c.old.key, c.old.value rowkey) := by
        rw [hold.entryOf_eq, holdEntry]
        rfl
      refine ⟨(i.del c.old.key).put c.new.key (c.new.value u.key), hleft, ?_, short_put (short_del hshort) hnewShort⟩
      rw [movedRows_eq]
      refine indexed_put (rows_del h.row) (hheld.del hg hentry) hx hnew hvacant hnewEntry (fun hform => ?_)
      rw [SortedMap.get_del]
      split_ifs with hplace
      · rfl
      rcases hgot : i.get c.new.key with _ | b
      · rfl
      · -- what the unique check let stand is the row's own entry
        exfalso
        have hget : Engine.get t c.index.tree c.new.key = .ok b :=
          (get_eq_ok c.index.tree_short).2 ⟨hnewShort, i, hi, hgot⟩
        have hself := Option.some.inj (uniquesTaken_ok huniq _ (hmem c hc).2 hform b hget)
        obtain ⟨k', row', hk', he'⟩ := (hheld.holds _ _).1 hgot
        obtain ⟨v', hv'⟩ := h.row k' row' hk'
        rw [hv'.entryOf_eq] at he'
        obtain ⟨e', hentry', heq⟩ := Option.map_eq_some_iff.1 he'
        obtain ⟨hkey, hvalue⟩ := Prod.mk.inj heq
        have hform' := uniqueForm_eq hnew.whole.values hv'.whole.values (hnew.reads _ hx) (hv'.reads _ hx) hnewEntry
          hentry' hkey.symm
        have hkk : k' = rowkey := by
          rw [Entry.value, if_pos (hform' ▸ hform)] at hvalue
          rw [hvalue, hself]
        subst hkk
        rw [hg] at hk'
        cases hk'
        have hvv := hv'.unique hold
        subst hvv
        rw [holdEntry] at hentry'
        cases hentry'
        exact hplace hkey.symm
  · rw [hsame n hidx, hother n hn]
  · rw [hsame META META_not_index, hother META (META_ne_treeName 'r' tb.id)]
    exact hmeta

/-! ## Deleting -/

/-- **A delete keeps the table's trees in step, refused or not.** -/
theorem rowDelete_holds {t : Trees} {tb : Table} {m : Tree} (rowkey : Bytes) (h : TableHolds t tb m) :
    ∃ m', TableHolds (rowDelete t tb rowkey).2 tb m' ∧ Confined tb t (rowDelete t tb rowkey).2 := by
  rcases hes : deleteChecks t tb rowkey with e | es
  · unfold rowDelete
    rw [hes]
    exact ⟨m, h, Confined.refl tb t⟩
  obtain ⟨row, v, hrow, hv, hbuild⟩ := deleteChecks_ok hes
  obtain ⟨hk, m₀, hm₀, hg⟩ := rowGet_ok hrow
  rw [h.rows] at hm₀
  cases hm₀
  have hnd := nodup_entries h.ok hbuild
  have hpresent : ∀ p ∈ es, Present t p.1.tree p.2.key := by
    intro p hp
    obtain ⟨hx, he⟩ := entriesBuild_mem hbuild p hp
    exact entry_present h hg hv hx he
  have hdone : (delEntries tb t es).1 = .ok () := (inTurn_ok (del_writes tb) es t hnd).2 hpresent
  have hleaves := inTurn_tree (del_writes tb) (fun t p hp => delEntry_leaves p hp) es t hnd hpresent
  have htrees : es.map (fun p => p.1.tree) = tb.idx.map Index.tree := by
    rw [← entriesBuild_indexes hbuild, List.map_map]
    rfl
  have hsame : ∀ n, n ∉ tb.idx.map Index.tree → (delEntries tb t es).2 n = t n :=
    fun n hn => inTurn_same (del_writes tb) es t n (htrees ▸ hn)
  unfold rowDelete
  rw [hes]
  dsimp only
  unfold delEntries at hdone hsame ⊢
  rcases hturn : inTurn (fun t p => delEntry t tb p.1 p.2) t es with ⟨r, t₁⟩
  rw [hturn] at hdone hleaves hsame
  dsimp only at hdone hleaves hsame
  subst hdone
  rw [hturn]
  dsimp only
  have hrows : t₁ tb.rowsTree = some m := (hsame _ rowsTree_not_index).trans h.rows
  rw [Engine.del_present tb.rowsTree_short hk hrows (by simp [hg])]
  dsimp only
  have hother : ∀ n, n ≠ tb.rowsTree → (t₁.set tb.rowsTree (some (m.del rowkey))) n = t₁ n :=
    fun n hn => set_of_ne _ hn _
  refine ⟨m.del rowkey, ⟨h.ok, h.keyPos, h.idxPos, fun hs => ?_, set_self .., rows_del h.row, fun x hx => ?_⟩,
    Confined.of_trees (fun n hn hidx _ => ?_) (fun hmeta => ?_)⟩
  · rw [hother _ (serialTree_ne_rowsTree tb tb), hsame _ serialTree_not_index]
    exact h.serial hs
  · obtain ⟨e, he⟩ := entriesBuild_of_mem hbuild hx
    obtain ⟨i, hi, hheld, hshort⟩ := h.index x hx
    obtain ⟨v', hv'⟩ := h.row rowkey row hg
    have hvv : v' = v := Except.ok.inj (hv'.decoded.symm.trans hv)
    subst hvv
    have hentry : entryOf tb x rowkey row = some (e.key, e.value rowkey) := by
      rw [hv'.entryOf_eq, (entriesBuild_mem hbuild _ he).2]
      rfl
    refine ⟨i.del e.key, ?_, hheld.del hg hentry, short_del hshort⟩
    rw [hother _ (rowsTree_ne_tree tb x).symm, hleaves _ he, hi]
    rfl
  · rw [hother n hn, hsame n hidx]
  · rw [hother META (META_ne_treeName 'r' tb.id), hsame META META_not_index]
    exact hmeta

end Gsql
end Gbasic
