import Gbasic.SqlSchema
import Gbasic.SqlForeignRun
/-!
# SqlSchemaHeld — what schema statements leave

A schema statement makes a table of its own, or restates the record of one: under another name, with an index, or with a
column at its end.  Rows are never rewritten, so what a row held it holds under the new record, the added columns
reading their defaults (`Restates`).  A name that bound before a column is added binds to the same column after it.
-/
namespace Gbasic
namespace Gsql

open Lsm (GS_MAX_KEY)
open Engine (Trees Tree Bytes)
open Key (Readable)
open Engine (treeCreate_cases set_of_ne set_self)

structure Restates (db db' : Db) (name : Bytes) (tb tb' : Table) (s : List Column) : Prop where
  there : db.table name = some tb
  table : ∀ n, db'.table n = if n = tb'.name then some tb' else if n = name then none else db.table n
  free : tb'.name = name ∨ db.table tb'.name = none
  longer : Extends tb tb' s
  added : ∀ c ∈ s, InColumn c c.missing
  short : tb'.cols.length ≤ MAX_ITEMS
  rows : ∀ u : Table, db'.trees u.rowsTree = db.trees u.rowsTree

structure Makes (db db' : Db) (tb : Table) : Prop where
  fresh : db.table tb.name = none
  table : ∀ n, db'.table n = if n = tb.name then some tb else db.table n
  fits : TableFit tb
  absent : db.trees tb.rowsTree = none
  empty : db'.trees tb.rowsTree = some .empty
  rows : ∀ u : Table, u.rowsTree ≠ tb.rowsTree → db'.trees u.rowsTree = db.trees u.rowsTree

section
variable {r : RowHost} {db db' : Db} {tb tb' : Table} {name k row : Bytes} {v : Vals} {s : List Column}

/-! ## Rows under a record restated -/

theorem RowHeld.extends (h : RowHeld tb k row v) (he : Extends tb tb' s) (hkey : ∀ i ∈ tb.key, i < tb.ncols)
    (hadded : ∀ c ∈ s, InColumn c c.missing) : RowHeld tb' k row (v ++ s.map Column.missing) where
  decoded := rowDecode_extends he.cols h.decoded
  whole := h.whole.extends he
  key := h.key.extends h.whole.length he hkey
  columns := by
    intro p hp
    have hlen : tb.cols.length = v.length := h.whole.length.symm
    rw [he.cols, List.zip_append hlen] at hp
    rcases List.mem_append.1 hp with hp | hp
    · exact h.columns p hp
    · have hzip : s.zip (s.map Column.missing) = s.map (fun c => (c, c.missing)) := by
        have hz := List.zip_map' (f := id) (g := Column.missing) (l := s)
        rwa [List.map_id] at hz
      rw [hzip] at hp
      obtain ⟨c, hc, rfl⟩ := List.mem_map.1 hp
      exact hadded c hc

theorem inColumn_missing {table : Bytes} {c : Column} (h : checkColumnDecl table c = .ok ())
    (hr : Readable ⟨false, false⟩ c.missing) : InColumn c c.missing := by
  unfold checkColumnDecl at h
  split at h
  · cases h
  split_ifs at h
  rcases hd : c.dflt with _ | d
  · refine ⟨hr, fun _ _ htag => ?_⟩
    rw [Column.missing, hd] at htag
    exact absurd htag (by decide)
  · rw [hd] at h
    dsimp only at h
    split at h
    · cases h
    rename_i hfits
    rw [Column.missing, hd] at hr ⊢
    exact inColumn_of_fits hfits hr

theorem TablesHold.restated (hT : TablesHold db) (h : Restates db db' name tb tb' s) : TablesHold db' := by
  have hfit := hT.fits _ _ h.there
  obtain ⟨m, hm, hheld⟩ := hT.rows _ _ h.there
  have hold : ∀ n u, db'.table n = some u → (n = tb'.name ∧ u = tb') ∨ (n ≠ name ∧ db.table n = some u) := by
    intro n u hu
    rw [h.table] at hu
    split_ifs at hu with hn hn'
    · cases hu
      exact .inl ⟨hn, rfl⟩
    · exact .inr ⟨hn', hu⟩
  have htree : tb'.rowsTree = tb.rowsTree := by rw [Table.rowsTree, Table.rowsTree, h.longer.id]
  have happart : ∀ n u, n ≠ name → db.table n = some u → u.rowsTree ≠ tb'.rowsTree := by
    intro n u hn hu he
    exact hn (hT.apart _ _ _ _ hu h.there (he.trans htree))
  refine ⟨fun n u hu => ?_, fun n u hu => ?_, fun n u n' u' hu hu' he => ?_, fun n u hu => ?_⟩
  · rcases hold n u hu with ⟨rfl, rfl⟩ | ⟨-, hu⟩
    · rfl
    · exact hT.named n u hu
  · rcases hold n u hu with ⟨rfl, rfl⟩ | ⟨-, hu⟩
    · refine ⟨h.short, fun i hi => ?_, fun c hc => ?_⟩
      · have hlt := hfit.key i (h.longer.key ▸ hi)
        rw [Table.ncols, h.longer.cols, List.length_append]
        exact Nat.lt_of_lt_of_le hlt (Nat.le_add_right _ _)
      · rw [h.longer.cols] at hc
        rcases List.mem_append.1 hc with hc | hc
        · exact hfit.missing c hc
        · exact (h.added c hc).reads
    · exact hT.fits n u hu
  · rcases hold n u hu with ⟨rfl, rfl⟩ | ⟨hn, hu⟩ <;> rcases hold n' u' hu' with ⟨rfl, rfl⟩ | ⟨hn', hu'⟩
    · rfl
    · exact absurd he.symm (happart _ _ hn' hu')
    · exact absurd he (happart _ _ hn hu)
    · exact hT.apart _ _ _ _ hu hu' he
  · rcases hold n u hu with ⟨rfl, rfl⟩ | ⟨-, hu⟩
    · refine ⟨m, ?_, fun k row hk => ?_⟩
      · rw [h.rows, htree]
        exact hm
      · obtain ⟨v, hv⟩ := hheld k row hk
        exact ⟨_, hv.extends h.longer hfit.key h.added⟩
    · obtain ⟨mu, hmu, hrows⟩ := hT.rows n u hu
      exact ⟨mu, (h.rows u).trans hmu, hrows⟩

theorem TablesHold.made (hT : TablesHold db) (h : Makes db db' tb) : TablesHold db' := by
  have hold : ∀ n u, db'.table n = some u → (n = tb.name ∧ u = tb) ∨ db.table n = some u := by
    intro n u hu
    rw [h.table] at hu
    split_ifs at hu with hn
    · cases hu
      exact .inl ⟨hn, rfl⟩
    · exact .inr hu
  have happart : ∀ n u, db.table n = some u → u.rowsTree ≠ tb.rowsTree := by
    intro n u hu he
    obtain ⟨m, hm, -⟩ := hT.rows n u hu
    rw [he, h.absent] at hm
    cases hm
  refine ⟨fun n u hu => ?_, fun n u hu => ?_, fun n u n' u' hu hu' he => ?_, fun n u hu => ?_⟩
  · rcases hold n u hu with ⟨rfl, rfl⟩ | hu
    · rfl
    · exact hT.named n u hu
  · rcases hold n u hu with ⟨rfl, rfl⟩ | hu
    · exact h.fits
    · exact hT.fits n u hu
  · rcases hold n u hu with ⟨rfl, rfl⟩ | hu <;> rcases hold n' u' hu' with ⟨rfl, rfl⟩ | hu'
    · rfl
    · exact absurd he.symm (happart _ _ hu')
    · exact absurd he (happart _ _ hu)
    · exact hT.apart _ _ _ _ hu hu' he
  · rcases hold n u hu with ⟨rfl, rfl⟩ | hu
    · refine ⟨.empty, h.empty, fun k row hk => ?_⟩
      rw [SortedMap.get_empty] at hk
      cases hk
    · obtain ⟨m, hm, hrows⟩ := hT.rows n u hu
      exact ⟨m, (h.rows u (happart n u hu)).trans hm, hrows⟩

/-! ## What each statement of the schema leaves -/

theorem schemaWrite_ok (h : schemaWrite db tb = (.ok (), db')) :
    db'.trees = db.trees ∧ ∀ n, db'.table n = if n = tb.name then some tb else db.table n := by
  unfold schemaWrite at h
  rcases hc : db.catalog with _ | c <;> rw [hc] at h
  · cases h
  dsimp only at h
  split_ifs at h
  · cases h
  cases h
  refine ⟨rfl, fun n => ?_⟩
  rw [Db.table, Db.table, hc]
  show (c.put tb.name tb).get n = _
  rw [SortedMap.get_put]
  split_ifs <;> rfl

theorem tableRename_ok {newName : Bytes} (h : tableRename db name newName = (.ok (), db')) :
    ∃ tb, db.table name = some tb ∧ db.table newName = none ∧ db'.trees = db.trees ∧
      ∀ n, db'.table n = if n = newName then some { tb with name := newName } else if n = name then none
      else db.table n := by
  unfold tableRename at h
  split at h
  · cases h
  rename_i hname
  have hlen := checkName_ok hname
  split at h
  · cases h
  · cases h
  rename_i tb hget
  split at h
  · cases h
  split at h
  · cases h
  swap
  · cases h
  rename_i hfree
  cases h
  refine ⟨tb, catalogGet_ok hget, catalogGet_notFound (MAX_NAME_short hlen) hfree, rfl, fun n => ?_⟩
  obtain ⟨c, hc⟩ := Option.isSome_iff_exists.1 (Agrees.catalog_some (catalogGet_ok hget))
  rw [Db.table, Db.table, hc]
  show ((c.del name).put newName { tb with name := newName }).get n = _
  rw [SortedMap.get_put, SortedMap.get_del]
  split_ifs <;> rfl

theorem TablesHold.restates_rename (hT : TablesHold db) {newName : Bytes}
    (h : tableRename db name newName = (.ok (), db')) :
    ∃ tb, Restates db db' name tb { tb with name := newName } [] ∧ newName ≠ name := by
  obtain ⟨tb, htb, hfree, htrees, htable⟩ := tableRename_ok h
  refine ⟨tb, ⟨htb, htable, .inr hfree, ⟨rfl, (List.append_nil _).symm, rfl, fun c hc => by cases hc⟩,
    (fun c hc => by cases hc), (hT.fits _ _ htb).cols, fun u => by rw [htrees]⟩, ?_⟩
  rintro rfl
  rw [hfree] at htb
  cases htb

theorem tableAddColumn_ok {c : Column} (h : tableAddColumn db tb c = (.ok (), db')) :
    addColumnChecks db.trees tb c = .ok () ∧ (∀ u : Table, db'.trees u.rowsTree = db.trees u.rowsTree) ∧
      ∀ n, db'.table n = if n = tb.name then some (withColumn tb c) else db.table n := by
  unfold tableAddColumn at h
  split at h
  · cases h
  rename_i hchecks
  split_ifs at h with hserial
  · rcases treeCreate_cases tb.serialTree_short db.trees with ⟨-, hcreate⟩ | ⟨-, hcreate⟩ <;> rw [hcreate] at h
    · cases h
    dsimp only at h
    obtain ⟨htrees, htable⟩ := schemaWrite_ok h
    refine ⟨hchecks, fun u => ?_, htable⟩
    rw [htrees]
    exact set_of_ne db.trees (serialTree_ne_rowsTree tb u).symm (some .empty)
  · obtain ⟨htrees, htable⟩ := schemaWrite_ok h
    exact ⟨hchecks, fun u => by rw [htrees], htable⟩

theorem TablesHold.restates_column (hT : TablesHold db) {c : Column} (hr : Readable ⟨false, false⟩ c.missing)
    (htb : db.table name = some tb) (h : tableAddColumn db tb c = (.ok (), db')) :
    Restates db db' name tb (withColumn tb c) [copyColumn c] := by
  obtain ⟨hchecks, hrows, htable⟩ := tableAddColumn_ok h
  have hname := hT.named _ _ htb
  obtain ⟨hcols, hmissing⟩ := addColumnChecks_ok hchecks
  have hin : InColumn (copyColumn c) (copyColumn c).missing := by
    unfold addColumnChecks at hchecks
    split at hchecks
    · cases hchecks
    rename_i hdecl
    exact InColumn.congr (c := c) rfl rfl (inColumn_missing hdecl hr)
  refine ⟨htb, fun n => ?_, .inl hname, ⟨rfl, rfl, rfl, fun d hd => ?_⟩, fun d hd => ?_, ?_, hrows⟩
  · rw [htable]
    show _ = if n = tb.name then some (withColumn tb c) else if n = name then none else db.table n
    rw [hname]
    split_ifs <;> rfl
  · rw [List.mem_singleton.1 hd]
    exact hmissing
  · rw [List.mem_singleton.1 hd]
    exact hin
  · rw [withColumn, List.length_append, List.length_singleton]
    exact hcols

theorem indexCreate_ok {d : IndexDecl} {m : Tree} (hm : db.trees tb.rowsTree = some m)
    (h : indexCreate db tb d = (.ok (), db')) :
    ∃ x, (∀ u : Table, db'.trees u.rowsTree = db.trees u.rowsTree) ∧
      ∀ n, db'.table n = if n = tb.name then some (withIndex tb x) else db.table n := by
  unfold indexCreate at h
  split at h
  · cases h
  obtain ⟨hnext, -, -⟩ := nextId_leaves db.trees
  rcases hid : nextId db.trees with ⟨e | id, t₁⟩ <;> rw [hid] at h hnext
  · cases h
  dsimp only at h hnext
  generalize hx : (⟨d.name, id, d.cols, d.unique⟩ : Index) = x at h
  rcases treeCreate_cases x.tree_short t₁ with ⟨-, hcreate⟩ | ⟨-, hcreate⟩ <;> rw [hcreate] at h
  · cases h
  dsimp only at h
  have hother : ∀ n, n ≠ x.tree → (t₁.set x.tree (some .empty)) n = t₁ n := fun n hn => set_of_ne _ hn _
  have hkept : ∀ u : Table, t₁ u.rowsTree = db.trees u.rowsTree :=
    fun u => hnext u.rowsTree (META_ne_treeName 'r' u.id).symm
  have hrows : (t₁.set x.tree (some .empty)) (withIndex tb x).rowsTree = some m :=
    (hother _ (rowsTree_ne_tree tb x)).trans ((hkept tb).trans hm)
  obtain ⟨-, hsame, -⟩ := indexBuild_leaves hrows (set_self ..)
  rcases hbuild : indexBuild (t₁.set x.tree (some .empty)) (withIndex tb x) x with ⟨e | ⟨⟩, t₂⟩ <;>
    rw [hbuild] at h hsame
  · cases h
  dsimp only at h hsame
  rcases hwrite : schemaWrite { db with trees := t₂ } (withIndex tb x) with ⟨e | ⟨⟩, db₃⟩ <;> rw [hwrite] at h
  · cases h
  cases h
  obtain ⟨htrees, htable⟩ := schemaWrite_ok hwrite
  refine ⟨x, fun u => ?_, htable⟩
  rw [htrees]
  exact (hsame _ (rowsTree_ne_tree u x)).trans ((hother _ (rowsTree_ne_tree u x)).trans (hkept u))

theorem TablesHold.restates_index (hT : TablesHold db) {d : IndexDecl} (htb : db.table name = some tb)
    (h : indexCreate db tb d = (.ok (), db')) : ∃ x, Restates db db' name tb (withIndex tb x) [] := by
  obtain ⟨m, hm, -⟩ := hT.rows _ _ htb
  obtain ⟨x, hrows, htable⟩ := indexCreate_ok hm h
  have hname := hT.named _ _ htb
  refine ⟨x, htb, fun n => ?_, .inl hname, ⟨rfl, (List.append_nil _).symm, rfl, fun c hc => by cases hc⟩,
    (fun c hc => by cases hc), (hT.fits _ _ htb).cols, hrows⟩
  rw [htable]
  show _ = if n = tb.name then some (withIndex tb x) else if n = name then none else db.table n
  rw [hname]
  split_ifs <;> rfl

theorem tableCreate_ok {d : TableDecl} (hread : ∀ c ∈ d.cols, Readable ⟨false, false⟩ c.missing)
    (h : tableCreate db d = (.ok (), db')) : ∃ id, Makes db db' (newTable d id) := by
  unfold tableCreate at h
  split at h
  · cases h
  rename_i hchecks
  obtain ⟨hname, hcols, hkey⟩ := createChecks_ok hchecks
  obtain ⟨a, db₁, hensure, htable, -, -, hsame⟩ := ensureTrees_leaves db
  rw [hensure] at h
  rcases a with e | ⟨⟩
  · cases h
  dsimp only at h
  split at h
  · cases h
  split at h
  · cases h
  swap
  · cases h
  rename_i hget
  have hfree := catalogGet_notFound (MAX_NAME_short hname) hget
  obtain ⟨hnext, -, -⟩ := nextId_leaves db₁.trees
  rcases hid : nextId db₁.trees with ⟨e | id, t₂⟩ <;> rw [hid] at h hnext
  · cases h
  dsimp only at h hnext
  have hkept : ∀ u : Table, t₂ u.rowsTree = db.trees u.rowsTree := fun u =>
    (hnext _ (META_ne_treeName 'r' u.id).symm).trans (hsame _ (META_ne_treeName 'r' u.id).symm)
  obtain ⟨t₃, hcreate, habsent, hempty, hrows⟩ : ∃ t₃, createTrees t₂ (newTable d id) = (.ok, t₃) ∧
      t₂ (newTable d id).rowsTree = none ∧ t₃ (newTable d id).rowsTree = some .empty ∧
      ∀ u : Table, u.rowsTree ≠ (newTable d id).rowsTree → t₃ u.rowsTree = t₂ u.rowsTree := by
    unfold createTrees at h ⊢
    rcases treeCreate_cases (newTable d id).rowsTree_short t₂ with ⟨-, hc⟩ | ⟨hnone, hc⟩ <;> rw [hc] at h ⊢
    · cases h
    dsimp only at h ⊢
    split_ifs at h ⊢ with hserial
    · rcases treeCreate_cases (newTable d id).serialTree_short
        (t₂.set (newTable d id).rowsTree (some .empty)) with ⟨-, hc'⟩ | ⟨-, hc'⟩ <;> rw [hc'] at h ⊢
      · cases h
      refine ⟨_, rfl, hnone, ?_, fun u hu => ?_⟩
      · rw [set_of_ne _ (serialTree_ne_rowsTree _ _).symm, set_self]
      · rw [set_of_ne _ (serialTree_ne_rowsTree _ _).symm, set_of_ne _ hu]
    · exact ⟨_, rfl, hnone, set_self .., fun u hu => set_of_ne _ hu _⟩
  rw [hcreate] at h
  dsimp only at h
  obtain ⟨htrees, htable₄⟩ := schemaWrite_ok h
  refine ⟨id, (htable _).symm.trans hfree, fun n => ?_, ⟨?_, fun i hi => ?_, fun c hc => ?_⟩, ?_, ?_, fun u hu => ?_⟩
  · rw [htable₄]
    show (if n = d.name then some (newTable d id) else db₁.table n) = _
    rw [htable]
    rfl
  · simpa [newTable] using hcols
  · simpa [newTable, Table.ncols] using hkey i hi
  · obtain ⟨c₀, hc₀, hmissing⟩ : ∃ c₀ ∈ d.cols, c.missing = c₀.missing := by
      simp only [newTable, List.mem_mapIdx] at hc
      obtain ⟨i, hi, rfl⟩ := hc
      refine ⟨d.cols[i], List.getElem_mem hi, ?_⟩
      split_ifs <;> rfl
    rw [hmissing]
    exact hread c₀ hc₀
  · rw [← hkept]
    exact habsent
  · rw [htrees]
    exact hempty
  · rw [htrees]
    exact (hrows u hu).trans (hkept u)

/-! ## Names bound again -/

theorem bindBare_ok {first : Bytes} {fields : List Bytes} {t : RowTerm} (h : bindBare tb first fields = .ok t) :
    ∃ i, tb.find first = some i ∧ boundColumn tb i fields = .ok t ∧ i < tb.ncols ∧ t = .col i fields := by
  unfold bindBare at h
  split at h
  swap
  · cases h
  rename_i i hi
  obtain ⟨hlt, -⟩ := List.findIdx?_eq_some_iff_getElem.1 hi
  refine ⟨i, hi, h, hlt, ?_⟩
  rcases fields with _ | ⟨f, fields⟩
  · cases h
    rfl
  · rw [boundColumn] at h
    split_ifs at h
    cases h
    rfl

theorem bindBare_longer {first : Bytes} {fields : List Bytes} {t : RowTerm} (hcols : tb'.cols = tb.cols ++ s)
    (h : bindBare tb first fields = .ok t) : bindBare tb' first fields = .ok t := by
  obtain ⟨i, hi, hcol, hlt, -⟩ := bindBare_ok h
  have hfind : tb'.find first = some i := by
    rw [Table.find, hcols, List.findIdx?_append]
    rw [Table.find] at hi
    rw [hi]
    rfl
  have hsame : tb'.col i = tb.col i := by rw [Table.col, Table.col, hcols, List.getD_append _ _ _ _ hlt]
  unfold bindBare
  rw [hfind]
  dsimp only
  rcases fields with _ | ⟨f, fields⟩
  · exact hcol
  · rw [boundColumn] at hcol ⊢
    rw [hsame]
    exact hcol

theorem bindName_longer {first : Bytes} {more : List Bytes} {t : RowTerm} (hname : tb'.name = tb.name)
    (hcols : tb'.cols = tb.cols ++ s) (h : bindName tb first more = .ok t) : bindName tb' first more = .ok t := by
  rcases more with _ | ⟨second, fields⟩
  · exact bindBare_longer hcols h
  · rw [bindName] at h ⊢
    rw [hname]
    split_ifs at h ⊢
    · exact bindBare_longer hcols h
    · exact bindBare_longer hcols h

mutual

/-- **What binds, binds alike when columns are added at the end.** -/
theorem bind_longer (hname : tb'.name = tb.name) (hcols : tb'.cols = tb.cols ++ s) : ∀ {e : RowText} {t : RowTerm},
    e.bind tb = .ok t → e.bind tb' = .ok t
  | .const v, t, h => h
  | .name first more, t, h => bindName_longer hname hcols h
  | .op f args, t, h => by
    rw [RowText.bind] at h ⊢
    split at h
    · cases h
    rename_i ts hts
    rw [bindAll_longer hname hcols hts]
    exact h

theorem bindAll_longer (hname : tb'.name = tb.name) (hcols : tb'.cols = tb.cols ++ s) : ∀ {es : List RowText}
    {ts : List RowTerm}, bindAll tb es = .ok ts → bindAll tb' es = .ok ts
  | [], ts, h => h
  | e :: es, ts, h => by
    rw [bindAll] at h ⊢
    split at h
    · cases h
    rename_i t ht
    split at h
    · cases h
    rename_i ts' hts
    rw [bind_longer hname hcols ht, bindAll_longer hname hcols hts]
    exact h

end

theorem bindName_reads {first : Bytes} {more : List Bytes} {t : RowTerm} (h : bindName tb first more = .ok t) {i : Nat}
    (hi : t.reads i = true) : i < tb.ncols := by
  have hbare : ∃ first' fields, bindBare tb first' fields = .ok t := by
    rcases more with _ | ⟨second, fields⟩
    · exact ⟨_, _, h⟩
    · rw [bindName] at h
      split_ifs at h
      · exact ⟨_, _, h⟩
      · exact ⟨_, _, h⟩
  obtain ⟨first', fields, hb⟩ := hbare
  obtain ⟨j, -, -, hlt, rfl⟩ := bindBare_ok hb
  rw [RowTerm.reads, decide_eq_true_eq] at hi
  exact hi ▸ hlt

mutual

theorem bind_reads {i : Nat} : ∀ {e : RowText} {t : RowTerm}, e.bind tb = .ok t → t.reads i = true → i < tb.ncols
  | .const v, t, h, hi => by
    cases h
    rw [RowTerm.reads] at hi
    cases hi
  | .name first more, t, h, hi => bindName_reads h hi
  | .op f args, t, h, hi => by
    rw [RowText.bind] at h
    split at h
    · cases h
    rename_i ts hts
    cases h
    rw [RowTerm.reads] at hi
    exact bindAll_reads hts hi

theorem bindAll_reads {i : Nat} : ∀ {es : List RowText} {ts : List RowTerm}, bindAll tb es = .ok ts →
    readsAny i ts = true → i < tb.ncols
  | [], ts, h, hi => by
    cases h
    cases hi
  | e :: es, ts, h, hi => by
    rw [bindAll] at h
    split at h
    · cases h
    rename_i t ht
    split at h
    · cases h
    rename_i ts' hts
    cases h
    rw [readsAny, Bool.or_eq_true] at hi
    rcases hi with hi | hi
    · exact bind_reads ht hi
    · exact bindAll_reads hts hi

end

/-! ## Names under a table renamed -/

mutual

def RowText.qualified (q : Bytes) : RowText → Bool
  | .const _ => false
  | .name first more => decide (first = q) && !more.isEmpty
  | .op _ args => qualifiedAny q args

def qualifiedAny (q : Bytes) : List RowText → Bool
  | [] => false
  | e :: es => e.qualified q || qualifiedAny q es

end

theorem bindBare_renamed {newName first : Bytes} {fields : List Bytes} {t : RowTerm} :
    bindBare { tb with name := newName } first fields = .ok t ↔ bindBare tb first fields = .ok t := by
  unfold bindBare
  have hfind : ({ tb with name := newName } : Table).find first = tb.find first := rfl
  rw [hfind]
  rcases tb.find first with _ | i
  · constructor <;> exact fun h => by cases h
  · rfl

theorem bindName_renamed {newName first : Bytes} {more : List Bytes} {t : RowTerm} (hne : newName ≠ tb.name)
    (h : bindName tb first more = .ok t) : bindName { tb with name := newName } first more = .ok t ↔
      (RowText.name first more).qualified tb.name = false ∧ (RowText.name first more).qualified newName = false := by
  rcases more with _ | ⟨second, fields⟩
  · simp only [RowText.qualified, List.isEmpty_nil, Bool.not_true, Bool.and_false, and_self, iff_true]
    exact bindBare_renamed.2 h
  · simp only [RowText.qualified, List.isEmpty_cons, Bool.not_false, Bool.and_true, decide_eq_false_iff_not]
    rw [bindName] at h ⊢
    -- a name read with the table before the dot has one field fewer than the same name read without
    by_cases hold : first = tb.name
    · rw [if_pos hold] at h
      rw [if_neg (fun he => hne (he.symm.trans hold)), bindBare_renamed]
      refine ⟨fun h' => ?_, fun hn => absurd hold hn.1⟩
      obtain ⟨i, -, -, -, rfl⟩ := bindBare_ok h
      obtain ⟨j, -, -, -, hj⟩ := bindBare_ok h'
      simp at hj
    · rw [if_neg hold] at h
      by_cases hnew : first = newName
      · rw [if_pos hnew, bindBare_renamed]
        refine ⟨fun h' => ?_, fun hn => absurd hnew hn.2⟩
        obtain ⟨i, -, -, -, rfl⟩ := bindBare_ok h
        obtain ⟨j, -, -, -, hj⟩ := bindBare_ok h'
        simp at hj
      · rw [if_neg hnew, bindBare_renamed]
        exact ⟨fun _ => ⟨hold, hnew⟩, fun _ => h⟩

mutual

/-- **A text keeps its columns where its table is renamed, if and only if no dotted name in it begins with the old
name or the new one.** -/
theorem bind_renamed {newName : Bytes} (hne : newName ≠ tb.name) : ∀ {e : RowText} {t : RowTerm}, e.bind tb = .ok t →
    (e.bind { tb with name := newName } = .ok t ↔ e.qualified tb.name = false ∧ e.qualified newName = false)
  | .const v, t, h => by
    simp only [RowText.qualified, and_self, iff_true]
    exact h
  | .name first more, t, h => bindName_renamed hne h
  | .op f args, t, h => by
    rw [RowText.bind] at h
    split at h
    · cases h
    rename_i ts hts
    cases h
    rw [RowText.qualified, RowText.qualified, ← bindAll_renamed hne hts, RowText.bind]
    constructor
    · intro h'
      split at h'
      · cases h'
      rename_i ts' hts'
      cases h'
      exact hts'
    · intro h'
      rw [h']

theorem bindAll_renamed {newName : Bytes} (hne : newName ≠ tb.name) : ∀ {es : List RowText} {ts : List RowTerm},
    bindAll tb es = .ok ts → (bindAll { tb with name := newName } es = .ok ts ↔
      qualifiedAny tb.name es = false ∧ qualifiedAny newName es = false)
  | [], ts, h => by
    simp only [qualifiedAny, and_self, iff_true]
    exact h
  | e :: es, ts, h => by
    rw [bindAll] at h
    split at h
    · cases h
    rename_i t ht
    split at h
    · cases h
    rename_i ts' hts
    cases h
    have hone := bind_renamed hne ht
    have hrest := bindAll_renamed hne hts
    rw [qualifiedAny, qualifiedAny, Bool.or_eq_false_iff, Bool.or_eq_false_iff, and_and_and_comm, ← hone, ← hrest,
      bindAll]
    constructor
    · intro h'
      split at h'
      · cases h'
      rename_i t' ht'
      split at h'
      · cases h'
      rename_i ts'' hts''
      cases h'
      exact ⟨ht', hts''⟩
    · rintro ⟨ht', hts'⟩
      rw [ht', hts']

end

end

end Gsql
end Gbasic
