import Gbasic.Moves
import Gbasic.SqlKeys
import Gbasic.TableAgreeRun
/-!
# SqlRows — what a row operation leaves in the rows

A row operation that succeeds changes the rows of its table by one entry and no other table's, whatever its indexes
hold: an insert puts a row under a free key, an update moves one, a delete takes one away.  What is written is what the
operation was given, and each value is as its column holds it.
-/
namespace Gbasic
namespace Gsql

open Lsm (Status GS_MAX_KEY)
open Engine (Trees Tree Bytes)
open Key (Readable)

/-! ## Rows as their columns hold them -/

def InColumns (tb : Table) (v : Vals) : Prop := ∀ p ∈ tb.cols.zip v, InColumn p.1 p.2

structure TableFit (tb : Table) : Prop where
  cols : tb.cols.length ≤ MAX_ITEMS
  key : ∀ i ∈ tb.key, i < tb.ncols
  missing : ∀ c ∈ tb.cols, Readable ⟨false, false⟩ c.missing

structure RowHeld (tb : Table) (k row : Bytes) (v : Vals) : Prop where
  decoded : rowDecode tb row = .ok v
  whole : Whole tb v
  key : KeyOf tb v k
  columns : InColumns tb v

def RowsHeld (tb : Table) (m : Tree) : Prop := ∀ k row, m.get k = some row → ∃ v, RowHeld tb k row v

/-- The rows of the other tables are as they were. -/
def OtherRows (tb : Table) (t t' : Trees) : Prop :=
  ∀ r : Table, r.rowsTree ≠ tb.rowsTree → t' r.rowsTree = t r.rowsTree

section
variable {t t' t'' : Trees} {tb : Table} {m : Tree} {k row rowkey : Bytes} {v old : Vals} {vals : List (Option Bytes)}

theorem OtherRows.refl (tb : Table) (t : Trees) : OtherRows tb t t := fun _ _ => rfl

theorem OtherRows.trans (h : OtherRows tb t t') (h' : OtherRows tb t' t'') : OtherRows tb t t'' :=
  fun r hr => (h' r hr).trans (h r hr)

theorem inColumn_nil (c : Column) : InColumn c [] := by
  constructor
  · intro htag
    exact absurd htag (by decide)
  · intro _ _ htag
    exact absurd htag (by decide)

theorem InColumns.at (h : InColumns tb v) (hlen : v.length = tb.ncols) (i : Nat) :
    InColumn (tb.col i) (v.getD i []) := by
  by_cases hi : i < tb.cols.length
  · have hiv : i < v.length := by rw [hlen]; exact hi
    have hmem : (tb.cols[i], v[i]) ∈ tb.cols.zip v := by
      rw [List.mem_iff_getElem]
      exact ⟨i, by rw [List.length_zip]; omega, by rw [List.getElem_zip]⟩
    rw [Table.col, List.getD_eq_getElem _ _ hi, List.getD_eq_getElem _ _ hiv]
    exact h _ hmem
  · rw [List.getD_eq_default _ _ (by rw [hlen]; exact not_lt.1 hi)]
    exact inColumn_nil _

theorem InColumns.readable (h : InColumns tb v) (hlen : v.length = tb.ncols) : ∀ x ∈ v, Readable ⟨false, false⟩ x := by
  intro x hx
  obtain ⟨i, hi, rfl⟩ := List.mem_iff_getElem.1 hx
  have hat := (h.at hlen i).reads
  rw [List.getD_eq_getElem _ _ hi] at hat
  exact hat

theorem inColumns_stored (h : InColumns tb v) : InColumns tb (v.map stored) := by
  intro p hp
  rw [List.zip_map_right] at hp
  obtain ⟨q, hq, rfl⟩ := List.mem_map.1 hp
  exact inColumn_stored (h q hq)

theorem rowHeld_encode (hfit : TableFit tb) (hw : Whole tb v) (hkey : KeyOf tb v k) (hcols : InColumns tb v) :
    RowHeld tb k (rowEncode tb v) (v.map stored) where
  decoded := rowDecode_rowEncode (lt_of_le_of_lt hfit.cols (by decide)) hw
  whole := hw.stored
  key := keyOf_stored hkey
  columns := inColumns_stored hcols

theorem RowsHeld.put (h : RowsHeld tb m) (hnew : RowHeld tb k row v) : RowsHeld tb (m.put k row) := by
  intro k' row' hk'
  rw [SortedMap.get_put] at hk'
  split_ifs at hk' with he
  · cases hk'
    exact ⟨v, he ▸ hnew⟩
  · exact h k' row' hk'

theorem rowDecodeFrom_length {count : Nat} : ∀ {cols : List Column} {i : Nat} {l r : Bytes} {v : Vals},
    rowDecodeFrom tb count i cols l = .ok (v, r) → v.length = cols.length
  | [], i, l, r, v, h => by
    cases h
    rfl
  | c :: cols, i, l, r, v, h => by
    rw [rowDecodeFrom] at h
    split_ifs at h
    · split at h
      · cases h
      split at h
      · cases h
      rename_i vs r' hrest
      cases h
      rw [List.length_cons, List.length_cons, rowDecodeFrom_length hrest]
    · split at h
      · cases h
      rename_i vs r' hrest
      cases h
      rw [List.length_cons, List.length_cons, rowDecodeFrom_length hrest]

theorem rowDecode_length (h : rowDecode tb row = .ok v) : v.length = tb.ncols := by
  unfold rowDecode at h
  dsimp only at h
  split at h
  · cases h
  split at h
  · cases h
  split_ifs at h
  split at h
  · cases h
  · rename_i vs hfrom
    cases h
    exact rowDecodeFrom_length hfrom
  · cases h

theorem mapM_ok {α β ε : Type} {f : α → Except ε β} : ∀ {l : List α} {l' : List β}, l.mapM f = .ok l' →
    List.Forall₂ (fun a b => f a = .ok b) l l'
  | [], l', h => by
    rw [List.mapM_nil] at h
    cases h
    exact .nil
  | a :: l, l', h => by
    rw [List.mapM_cons] at h
    rcases ha : f a with e | b <;> rw [ha] at h
    · cases h
    rcases hl : l.mapM f with e | l₂ <;> rw [hl] at h
    · cases h
    cases h
    exact .cons ha (mapM_ok hl)

/-! ## What is resolved is what was given -/

theorem resolveFrom_readable : ∀ {cols : List Column} {vals : List (Option Bytes)} {old : Option Vals} {v : Vals},
    resolveFrom tb cols vals old = .ok v → (∀ c ∈ cols, Readable ⟨false, false⟩ c.missing) →
    (∀ x, some x ∈ vals → Readable ⟨false, false⟩ x) → (∀ o, old = some o → ∀ x ∈ o, Readable ⟨false, false⟩ x) →
    ∀ p ∈ cols.zip v, InColumn p.1 p.2
  | [], _, _, v, h, _, _, _ => by
    cases h
    intro p hp
    cases hp
  | c :: cols, vals, old, v, h, hmissing, hvals, hold => by
    rw [resolveFrom] at h
    split at h
    · cases h
    rename_i hfits
    split at h
    · cases h
    rename_i vs hrest
    cases h
    have htail : ∀ x, some x ∈ vals.tail → Readable ⟨false, false⟩ x :=
      fun x hx => hvals x (List.mem_of_mem_tail hx)
    have holdTail : ∀ o, old.map List.tail = some o → ∀ x ∈ o, Readable ⟨false, false⟩ x := by
      intro o ho x hx
      obtain ⟨o', ho', rfl⟩ := Option.map_eq_some_iff.1 ho
      exact hold o' ho' x (List.mem_of_mem_tail hx)
    have hrest' := resolveFrom_readable hrest (fun c hc => hmissing c (List.mem_cons_of_mem _ hc)) htail holdTail
    have hchosen : Readable ⟨false, false⟩ (c.chosen (vals.headD none) old) := by
      unfold Column.chosen
      rcases hv : vals.headD none with _ | x
      · rcases old with _ | o
        · exact hmissing c (List.mem_cons_self ..)
        · cases o with
          | nil => exact (inColumn_nil c).reads
          | cons y o => exact hold _ rfl y (List.mem_cons_self ..)
      · refine hvals x ?_
        cases vals with
        | nil => cases hv
        | cons a vals => exact hv ▸ List.mem_cons_self ..
    intro p hp
    rw [List.zip_cons_cons] at hp
    rcases List.mem_cons.1 hp with rfl | hp
    · exact inColumn_of_fits hfits hchosen
    · exact hrest' p hp

theorem resolveFrom_none : ∀ {cols : List Column} {vals : List (Option Bytes)} {v : Vals},
    resolveFrom tb cols vals none = .ok v → v = cols.mapIdx (fun i c => (vals.getD i none).getD c.missing)
  | [], _, v, h => by
    cases h
    rfl
  | c :: cols, vals, v, h => by
    rw [resolveFrom] at h
    split at h
    · cases h
    split at h
    · cases h
    rename_i vs hrest
    cases h
    have hchosen : c.chosen (vals.headD none) none = (vals.getD 0 none).getD c.missing := by
      cases vals with
      | nil => rfl
      | cons a vals => cases a <;> rfl
    rw [List.mapIdx_cons, hchosen, resolveFrom_none hrest]
    congr 1
    apply List.ext_getElem?
    intro i
    rw [List.getElem?_mapIdx, List.getElem?_mapIdx]
    cases vals <;> rfl

theorem resolveFrom_some : ∀ {cols : List Column} {vals : List (Option Bytes)} {old v : Vals},
    resolveFrom tb cols vals (some old) = .ok v → vals.length = cols.length → old.length = cols.length →
    v = List.zipWith (fun g o => g.getD o) vals old
  | [], vals, old, v, h, hvals, _ => by
    cases h
    rw [List.length_eq_zero_iff.1 hvals]
    rfl
  | c :: cols, [], _, _, _, hvals, _ => by cases hvals
  | c :: cols, _ :: _, [], _, _, _, hold => by cases hold
  | c :: cols, a :: vals, o :: old, v, h, hvals, hold => by
    rw [resolveFrom] at h
    split at h
    · cases h
    split at h
    · cases h
    rename_i vs hrest
    cases h
    have ih := resolveFrom_some hrest (Nat.succ.inj hvals) (Nat.succ.inj hold)
    rw [List.zipWith_cons_cons, ih]
    cases a <;> rfl

/-! ## One row operation -/

structure Inserted (tb : Table) (t t' : Trees) (m : Tree) (k : Bytes) (v : Vals) : Prop where
  rows : t tb.rowsTree = some m
  free : m.get k = none
  whole : Whole tb v
  key : KeyOf tb v k
  now : t' tb.rowsTree = some (m.put k (rowEncode tb v))
  others : OtherRows tb t t'

theorem rowInsert_ok {k : Bytes} (h : rowInsert t tb vals = (.ok k, t')) :
    ∃ m v, resolve tb vals none = .ok v ∧ Inserted tb t t' m k v := by
  unfold rowInsert at h
  rcases hc : insertChecks t tb vals with e | c <;> rw [hc] at h
  · cases h
  dsimp only at h
  obtain ⟨hw, hkey, -⟩ := insertChecks_found hc
  have hres : resolve tb vals none = .ok c.vals := by
    unfold insertChecks at hc
    iterate 4
      split at hc
      · cases hc
    cases hc
    assumption
  by_cases hv : Engine.Vacant t tb.rowsTree c.key
  swap
  · obtain ⟨rc, hrc, hput⟩ := Engine.put_new_refused tb.rowsTree_short hv (rowEncode tb c.vals)
    rw [insertWrites, hput] at h
    cases rc <;> first | exact absurd rfl hrc | cases h
  obtain ⟨hk, m, hm, hfree⟩ := hv
  rw [insertWrites, Engine.put_vacant tb.rowsTree_short hk hm hfree] at h
  dsimp only at h
  have hck : c.key = k := by
    unfold insertRest at h
    split at h
    · cases h
    split_ifs at h
    · split at h <;> cases h
      rfl
    · cases h
      rfl
  have hrows : ∀ r : Table, t' r.rowsTree = (t.set tb.rowsTree (some
      (m.put c.key (rowEncode tb c.vals)))) r.rowsTree := by
    intro r
    have hrest : (insertRest (t.set tb.rowsTree (some (m.put c.key (rowEncode tb c.vals)))) tb c).2 r.rowsTree = _ :=
      insertRest_rows
    rw [h] at hrest
    exact hrest
  subst hck
  exact ⟨m, c.vals, hres, hm, hfree, hw, hkey, (hrows tb).trans (Engine.set_self ..),
    fun r hr => (hrows r).trans (Engine.set_of_ne _ hr _)⟩

/-- A duplicate is found before anything is written. -/
theorem rowInsert_duplicate {e : Error} (h : rowInsert t tb vals = (.error e, t')) (he : e.code = .duplicate) :
    t' = t := by
  unfold rowInsert at h
  split at h
  · cases h
    rfl
  rename_i c _
  exfalso
  have hentry : ∀ (t : Trees) (p : Index × Entry) (e : Error), (putEntry t p.1 p.2 c.key).1 = .error e →
      e.code = .storage := by
    intro t p e he
    unfold putEntry at he
    split at he <;> cases he
    rfl
  have hturn : ∀ (es : List (Index × Entry)) (t : Trees) (e : Error), (putEntries c.key t es).1 = .error e →
      e.code = .storage := by
    intro es
    induction es with
    | nil =>
      intro t e he
      cases he
    | cons p es ih =>
      intro t e he
      unfold putEntries at he ih
      rw [inTurn] at he
      split at he
      · rename_i hp
        cases he
        exact hentry t p _ (by rw [hp])
      · exact ih _ e he
  have hcode : e.code = .storage := by
    unfold insertWrites at h
    split at h
    · unfold insertRest at h
      split at h
      · rename_i hp
        cases h
        exact hturn _ _ _ (by rw [hp])
      split_ifs at h
      on_goal 2 => cases h
      split at h <;> cases h
      rename_i hm
      unfold metaPut at hm
      split at hm <;> cases hm
      rfl
    · cases h
      rfl
  rw [he] at hcode
  cases hcode

structure Updated (tb : Table) (t t' : Trees) (m : Tree) (rowkey oldrow : Bytes) (old : Vals) (k : Bytes) (v : Vals) :
    Prop where
  rows : t tb.rowsTree = some m
  there : m.get rowkey = some oldrow
  decoded : rowDecode tb oldrow = .ok old
  free : (m.del rowkey).get k = none
  whole : Whole tb v
  key : (if tb.key = [] then .ok rowkey else primaryKey tb v) = .ok k
  now : t' tb.rowsTree = some ((m.del rowkey).put k (rowEncode tb v))
  others : OtherRows tb t t'

theorem updateKey_ok (h : updateKey t tb rowkey v = .ok k) :
    (if tb.key = [] then .ok rowkey else primaryKey tb v) = .ok k := by
  unfold updateKey at h
  split at h
  · cases h
  rename_i k' hk'
  have hkk : k' = k := by
    split_ifs at h
    · split at h <;> cases h
      rfl
    · exact Except.ok.inj h
  rw [← hkk, ← hk']
  by_cases hnil : tb.key = []
  · rw [if_pos hnil, if_neg (not_not.2 hnil)]
  · rw [if_neg hnil, if_pos hnil]

theorem updateChecks_resolve {u : Update} (h : updateChecks t tb rowkey vals = .ok u) :
    ∃ oldrow old, rowGet t tb rowkey = .ok oldrow ∧ rowDecode tb oldrow = .ok old ∧
      resolve tb vals (some old) = .ok u.vals := by
  unfold updateChecks at h
  split at h
  · cases h
  rename_i oldrow hrow
  split at h
  · cases h
  rename_i old hdec
  split at h
  · cases h
  rename_i v hres
  iterate 4
    split at h
    · cases h
  cases h
  exact ⟨oldrow, old, hrow, hdec, hres⟩

theorem rowUpdate_ok {k : Bytes} (h : rowUpdate t tb rowkey vals = (.ok k, t')) :
    ∃ m oldrow old v, resolve tb vals (some old) = .ok v ∧ Updated tb t t' m rowkey oldrow old k v := by
  unfold rowUpdate at h
  rcases hu : updateChecks t tb rowkey vals with e | u <;> rw [hu] at h
  · cases h
  dsimp only at h
  obtain ⟨oldrow, old, olde, newe, hfound⟩ := updateChecks_found hu
  obtain ⟨oldrow', old', hrow', hdec', hres⟩ := updateChecks_resolve hu
  rw [hfound.row] at hrow'
  cases hrow'
  rw [hfound.decoded] at hdec'
  cases hdec'
  obtain ⟨hk, m, hm, hg⟩ := rowGet_ok hfound.row
  rcases hrow : updateRow t tb rowkey u with ⟨st, t₁⟩
  rw [hrow] at h
  cases st <;> try cases h
  -- a key past the limit was refused by the engine
  have hlen : u.key ≠ rowkey → u.key.length ≤ GS_MAX_KEY := by
    intro hmoved
    by_contra hlong
    unfold updateRow at hrow
    rw [if_pos hmoved, Engine.del_present tb.rowsTree_short hk hm (by simp [hg])] at hrow
    dsimp only at hrow
    rw [Engine.put, if_pos (not_le.1 hlong)] at hrow
    cases hrow
  obtain ⟨t₂, hrow₂, hrows, hfree, hother⟩ := updateRow_leaves hfound hm hlen
  rw [hrow] at hrow₂
  cases hrow₂
  dsimp only at h
  have hsame : ∀ r : Table, (updateEntries tb (u.key ≠ rowkey) u.key t₁ u.changes).2 r.rowsTree = t₁ r.rowsTree := by
    intro r
    refine inTurn_same (change_writes tb (u.key ≠ rowkey) u.key) u.changes t₁ _ (fun hmem => ?_)
    obtain ⟨c, -, hc⟩ := List.mem_map.1 hmem
    exact rowsTree_ne_tree r c.index hc.symm
  rcases hes : updateEntries tb (u.key ≠ rowkey) u.key t₁ u.changes with ⟨_ | ⟨⟩, t₃⟩ <;> rw [hes] at h hsame
  · cases h
  cases h
  refine ⟨m, oldrow, old, u.vals, hres, hm, hg, hfound.decoded, hfree, hfound.whole,
    updateKey_ok hfound.key, ?_, fun r hr => (hsame r).trans (hother _ hr)⟩
  rw [← movedRows_eq, ← hrows]
  exact hsame tb

theorem rowDelete_rows (h : rowDelete t tb rowkey = (.ok (), t')) :
    ∃ m, t tb.rowsTree = some m ∧ (m.get rowkey).isSome ∧ t' tb.rowsTree = some (m.del rowkey) ∧ OtherRows tb t t' := by
  unfold rowDelete at h
  rcases hc : deleteChecks t tb rowkey with e | es <;> rw [hc] at h
  · cases h
  dsimp only at h
  obtain ⟨row, v, hrow, -, -⟩ := deleteChecks_ok hc
  obtain ⟨hk, m, hm, hg⟩ := rowGet_ok hrow
  have hsame : ∀ r : Table, (delEntries tb t es).2 r.rowsTree = t r.rowsTree :=
    fun r => inTurn_same (del_writes tb) es t _ (rows_not_entries r es)
  rcases hes : delEntries tb t es with ⟨_ | ⟨⟩, t₁⟩ <;> rw [hes] at h hsame
  · cases h
  dsimp only at h hsame
  rw [Engine.del_present tb.rowsTree_short hk ((hsame tb).trans hm) (by simp [hg])] at h
  cases h
  exact ⟨m, hm, by simp [hg], Engine.set_self .., fun r hr => (Engine.set_of_ne _ hr _).trans (hsame r)⟩

end

end Gsql
end Gbasic
