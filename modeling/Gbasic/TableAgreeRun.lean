import Gbasic.TableAgreeRow
/-!
# TableAgreeRun — rows and indexes agree in every state reached

A run starts from no trees and takes any operations in any order, refused ones too.  The catalog's operations keep
`Agrees` whole: a tree made for a record is made before the record names it and dropped where the record is refused.
What the row operations and the building of an index leave out (`Op.Meets`) is all a run must meet
(`rowsAndIndexesAgree_runs`).
-/
namespace Gbasic
namespace Gsql

open Lsm (Status GS_MAX_KEY)
open Engine (Trees Tree Bytes treeCreate treeDrop put)
open SortedMap (Indexed)
open List (mem_cons append_nil mem_singleton mem_cons_self mem_append)
open Engine (Room put_room set_self put_refused treeCreate_cases set_of_ne)
open SortedMap (get_put get_empty get_eq_some_iff)

variable {db : Db} {tb : Table} {name : Bytes} {t : Trees} {x : Index}

/-! ## The catalog and the meta tree -/

theorem catalogGet_ok (h : catalogGet db name = .ok tb) : db.table name = some tb := by
  unfold catalogGet at h
  rcases hc : db.catalog with _ | c <;> rw [hc] at h
  · cases h
  dsimp only at h
  split_ifs at h
  rcases hg : c.get name with _ | tb' <;> rw [hg] at h <;> cases h
  rw [Db.table, hc]
  exact hg

theorem catalogGet_notFound (hn : name.length ≤ GS_MAX_KEY) (h : catalogGet db name = .error .notFound) :
    db.table name = none := by
  unfold catalogGet at h
  rcases hc : db.catalog with _ | c <;> rw [hc] at h
  · rw [Db.table, hc]
    rfl
  dsimp only at h
  rw [if_neg (not_lt.2 hn)] at h
  rcases hg : c.get name with _ | tb' <;> rw [hg] at h
  · rw [Db.table, hc]
    exact hg
  · cases h

theorem tableOpen_ok (h : tableOpen db name = .ok tb) : db.table name = some tb := by
  unfold tableOpen at h
  split at h <;> cases h
  exact catalogGet_ok ‹_›

theorem MAX_NAME_short (h : name.length ≤ MAX_NAME) : name.length ≤ GS_MAX_KEY := h.trans (by decide)

theorem checkName_ok {what : String} (h : checkName what name = .ok ()) : name.length ≤ MAX_NAME := by
  unfold checkName at h
  split_ifs at h with _ hlen
  exact not_lt.1 hlen

theorem schemaWrite_leaves (db : Db) (tb : Table) (hc : db.catalog.isSome) (hn : tb.name.length ≤ MAX_NAME) :
    ∃ db', schemaWrite db tb = (.ok (), db') ∧ db'.trees = db.trees ∧ db'.catalog.isSome ∧
      ∀ n, db'.table n = if n = tb.name then some tb else db.table n := by
  obtain ⟨c, hc⟩ := Option.isSome_iff_exists.1 hc
  refine ⟨{ db with catalog := some (c.put tb.name tb) }, ?_, rfl, rfl, fun n => ?_⟩
  · unfold schemaWrite
    rw [hc]
    dsimp only
    rw [if_neg (not_lt.2 (MAX_NAME_short hn))]
  · rw [Db.table, Db.table, hc]
    show (c.put tb.name tb).get n = _
    rw [get_put]
    split_ifs <;> rfl

theorem metaPut_shared {key : Bytes} {v : Nat} (h : (t META).isSome) : ((metaPut t key v).2 META).isSome := by
  by_cases hr : Room t META key
  · obtain ⟨m, hm⟩ := Option.isSome_iff_exists.1 hr.2
    rw [metaPut, put_room (by decide) hr.1 hm]
    dsimp only
    rw [set_self]
    rfl
  · obtain ⟨rc, hrc, hput⟩ := put_refused META_short hr (lePut 8 v)
    rw [metaPut, hput]
    cases rc <;> exact h

theorem nextId_leaves (t : Trees) :
    (∀ n, n ≠ META → (nextId t).2 n = t n) ∧ ((t META).isSome → ((nextId t).2 META).isSome) ∧
      ∀ id, (nextId t).1 = .ok id → id < 2 ^ 64 := by
  unfold nextId
  rcases hget : metaGet t NEXT with e | id
  · refine ⟨fun _ _ => rfl, fun h => h, fun id h => ?_⟩
    cases h
  have hlt : id < 2 ^ 64 := by
    unfold metaGet at hget
    split at hget
    · cases hget
      decide
    · cases hget
    rename_i got _
    split_ifs at hget with hlen
    cases hget
    have h := leNat_lt got
    rw [not_not.1 hlen] at h
    exact h
  dsimp only
  have hsame : ∀ n, n ≠ META → (metaPut t NEXT (id + 1)).2 n = t n := fun n hn => metaPut_same hn
  have hshared : (t META).isSome → ((metaPut t NEXT (id + 1)).2 META).isSome := metaPut_shared
  rcases hput : metaPut t NEXT (id + 1) with ⟨_ | ⟨⟩, t'⟩ <;> rw [hput] at hsame hshared
  · refine ⟨hsame, hshared, fun id h => ?_⟩
    cases h
  · refine ⟨hsame, hshared, fun id' h => ?_⟩
    cases h
    exact hlt

theorem checkPositions_ok {table : Bytes} {what : String} {ncols : Nat} : ∀ {pos seen : List Nat},
    checkPositions table what ncols seen pos = .ok () → ∀ p ∈ pos, p < ncols
  | [], _, _, p, hp => by cases hp
  | q :: pos, seen, h, p, hp => by
    rw [checkPositions] at h
    split_ifs at h with hlt hmem
    rcases mem_cons.1 hp with rfl | hp
    · exact not_le.1 hlt
    · exact checkPositions_ok h p hp

/-! ## Tables created and renamed -/

theorem ensureTrees_leaves (db : Db) :
    ∃ r db', ensureTrees db = (r, db') ∧ (∀ n, db'.table n = db.table n) ∧ db'.catalog.isSome ∧
      (db'.trees META).isSome ∧ ∀ n, n ≠ META → db'.trees n = db.trees n := by
  have htable : ∀ t n, (Db.mk (some (db.catalog.getD .empty)) t).table n = db.table n := by
    intro t n
    rw [Db.table, Db.table]
    rcases db.catalog with _ | c
    · rfl
    · rfl
  unfold ensureTrees
  rcases treeCreate_cases META_short db.trees with ⟨hsome, h⟩ | ⟨hnone, h⟩
  · rw [h]
    exact ⟨_, _, rfl, htable _, rfl, hsome, fun _ _ => rfl⟩
  · rw [h]
    exact ⟨_, _, rfl, htable _, rfl, by dsimp only; rw [set_self]; rfl, fun n hn => set_of_ne _ hn _⟩

theorem createChecks_ok {d : TableDecl} (h : createChecks d = .ok ()) :
    d.name.length ≤ MAX_NAME ∧ d.cols.length ≤ MAX_ITEMS ∧ ∀ i ∈ d.key, i < d.cols.length := by
  unfold createChecks at h
  split at h
  · cases h
  rename_i hname
  split_ifs at h with _ hcols
  split at h
  · cases h
  split at h
  · cases h
  rename_i hkey
  exact ⟨checkName_ok hname, not_lt.1 hcols, checkPositions_ok hkey⟩

theorem createTrees_leaves (h : Agrees db) (ht : ∀ n, n ≠ META → t n = db.trees n) (tb : Table) :
    (∃ t', createTrees t tb = (.ok, t') ∧ t' tb.rowsTree = some .empty ∧
      (tb.hasSerial = true → (t' tb.serialTree).isSome) ∧ t tb.rowsTree = none ∧
      (tb.hasSerial = true → t tb.serialTree = none) ∧
      ∀ n, n ≠ tb.rowsTree → (tb.hasSerial = true → n ≠ tb.serialTree) → t' n = t n) ∨
      createTrees t tb = (.exists, t) := by
  unfold createTrees
  rcases treeCreate_cases tb.rowsTree_short t with ⟨-, hrows⟩ | ⟨hnone, hrows⟩
  · rw [hrows]
    exact .inr rfl
  rw [hrows]
  dsimp only
  by_cases hs : tb.hasSerial = true
  swap
  · rw [if_neg hs]
    exact .inl ⟨_, rfl, set_self .., fun h => absurd h hs, hnone, fun h => absurd h hs,
      fun n hn _ => set_of_ne _ hn _⟩
  rw [if_pos hs]
  have hother : (t.set tb.rowsTree (some .empty)) tb.serialTree = t tb.serialTree :=
    set_of_ne _ (serialTree_ne_rowsTree tb tb) _
  rcases treeCreate_cases tb.serialTree_short (t.set tb.rowsTree (some .empty))
    with ⟨hsome, -⟩ | ⟨hserial, hcreate⟩
  · -- whoever has that serial tree has rows beside it
    exfalso
    rw [hother, ht tb.serialTree (META_ne_treeName 'q' tb.id).symm] at hsome
    obtain ⟨name, tb₂, htb₂, hmem⟩ := h.owned _ ⟨'q', by simp, tb.id, rfl⟩ hsome
    obtain ⟨m, hm⟩ := h.holds name tb₂ htb₂
    rcases mem_treeNames.1 hmem with he | ⟨-, he⟩ | ⟨x, -, he⟩
    · exact serialTree_ne_rowsTree tb tb₂ he
    · have hrowsName : tb₂.rowsTree = tb.rowsTree := by
        simp only [Table.serialTree, treeName, List.cons.injEq, true_and] at he
        rw [Table.rowsTree, Table.rowsTree, treeName, treeName, he]
      have hm' := hm.rows
      rw [hrowsName, ← ht tb.rowsTree (META_ne_treeName 'r' tb.id).symm, hnone] at hm'
      cases hm'
    · exact serialTree_ne_tree tb x he
  · rw [hcreate]
    refine .inl ⟨_, rfl, ?_, fun _ => ?_, hnone, fun _ => hother ▸ hserial, fun n hn hq => ?_⟩
    · rw [set_of_ne _ (serialTree_ne_rowsTree tb tb).symm, set_self]
    · rw [set_self]
      rfl
    · rw [set_of_ne _ (hq hs), set_of_ne _ hn]

theorem newTable_holds {d : TableDecl} {id : Nat} (hcols : d.cols.length ≤ MAX_ITEMS)
    (hkey : ∀ i ∈ d.key, i < d.cols.length) (hrows : t (newTable d id).rowsTree = some .empty)
    (hserial : (newTable d id).hasSerial = true → (t (newTable d id).serialTree).isSome) :
    TableHolds t (newTable d id) .empty where
  ok := ⟨by simpa [newTable] using hcols, fun x hx => (by cases hx), List.nodup_nil⟩
  keyPos i hi := by simpa [newTable, Table.ncols] using hkey i hi
  idxPos x hx := by cases hx
  serial := hserial
  rows := hrows
  row k row h := by
    rw [get_empty] at h
    cases h
  index x hx := by cases hx

theorem tableCreate_agrees (h : Agrees db) (d : TableDecl) : Agrees (tableCreate db d).2 := by
  unfold tableCreate
  rcases hchecks : createChecks d with e | ⟨⟩
  · exact h
  dsimp only
  obtain ⟨hname, hcols, hkey⟩ := createChecks_ok hchecks
  obtain ⟨r, db₁, hensure, htable, hcatalog, hshared, hsame⟩ := ensureTrees_leaves db
  have h₁ : Agrees db₁ := h.same htable (fun _ => hshared) hsame
  rw [hensure]
  rcases r with e | ⟨⟩
  · exact h₁
  dsimp only
  rcases Engine.get db₁.trees VIEWS d.name with _ | _
  swap
  · exact h₁
  dsimp only
  rcases hget : catalogGet db₁ d.name with st | tb₀
  swap
  · exact h₁
  by_cases hst : st = .notFound
  swap
  · cases st <;> first | exact absurd rfl hst | exact h₁
  subst hst
  have hfree := catalogGet_notFound (MAX_NAME_short hname) hget
  obtain ⟨hnext, hmeta, -⟩ := nextId_leaves db₁.trees
  rcases hid : nextId db₁.trees with ⟨e | id, t₂⟩ <;> rw [hid] at hnext hmeta <;> dsimp only at hnext hmeta ⊢
  · exact h₁.same (fun _ => rfl) (fun _ => hmeta hshared) hnext
  rcases createTrees_leaves h₁ hnext (newTable d id) with ⟨t₃, hcreate, hrows, hserial, hnorows, hnoserial,
    hother⟩ | hcreate
  · rw [hcreate]
    dsimp only
    obtain ⟨db₄, hwrite, htrees, -, htable₄⟩ :=
      schemaWrite_leaves { db₁ with trees := t₃ } (newTable d id) hcatalog hname
    rw [hwrite]
    have hnames : ∀ n, n ∈ (newTable d id).treeNames ↔ n = (newTable d id).rowsTree ∨
        ((newTable d id).hasSerial = true ∧ n = (newTable d id).serialTree) := by
      intro n
      rw [mem_treeNames]
      constructor
      · rintro (h | h | ⟨x, hx, -⟩)
        · exact .inl h
        · exact .inr h
        · cases hx
      · rintro (h | h)
        · exact .inl h
        · exact .inr (.inl h)
    have hout : ∀ n, n ∉ (newTable d id).treeNames → t₃ n = t₂ n := by
      intro n hn
      refine hother n (fun he => hn ((hnames n).2 (.inl he))) (fun hs he => hn ((hnames n).2 (.inr ⟨hs, he⟩)))
    have hholds : TableHolds db₄.trees (newTable d id) .empty := by
      rw [htrees]
      exact newTable_holds hcols hkey hrows hserial
    refine h₁.replace (.inl (rfl : d.name = d.name)) (fun n => ?_) ⟨rfl, hname⟩ hholds ?_ (fun n _ hn hm => ?_)
      (fun n hn => ?_) (fun tb htb => ?_)
    · rw [htable₄]
      show (if n = d.name then some (newTable d id) else db₁.table n) = _
      split_ifs <;> rfl
    · rw [htrees]
      show (t₃ META).isSome
      rw [hout META (fun he => treeNames_ne_META he rfl)]
      exact hmeta hshared
    · rw [htrees]
      exact (hout n hn).trans (hnext n hm)
    · right
      rw [← hnext n (treeNames_ne_META hn)]
      rcases (hnames n).1 hn with rfl | ⟨hs, rfl⟩
      · exact hnorows
      · exact hnoserial hs
    · rw [hfree] at htb
      cases htb
  · rw [hcreate]
    exact h₁.same (fun _ => rfl) (fun _ => hmeta hshared) hnext

theorem tableRename_agrees (h : Agrees db) (name newName : Bytes) : Agrees (tableRename db name newName).2 := by
  unfold tableRename
  rcases hcheck : checkName "table" newName with e | ⟨⟩
  · exact h
  dsimp only
  have hlen := checkName_ok hcheck
  rcases hget : catalogGet db name with st | tb
  · cases st <;> exact h
  dsimp only
  rcases Engine.get db.trees VIEWS newName with _ | _
  swap
  · exact h
  dsimp only
  rcases hnew : catalogGet db newName with st | tb₀
  swap
  · exact h
  by_cases hst : st = .notFound
  swap
  · cases st <;> first | exact absurd rfl hst | exact h
  subst hst
  have htb := catalogGet_ok hget
  have hfree := catalogGet_notFound (MAX_NAME_short hlen) hnew
  obtain ⟨m, hm⟩ := h.holds name tb htb
  let tb' : Table := { tb with name := newName }
  have hextends : Extends tb tb' [] := ⟨rfl, (append_nil _).symm, rfl, fun c hc => by cases hc⟩
  have hnames : tb'.treeNames = tb.treeNames := rfl
  have hholds : TableHolds db.trees tb' m :=
    hm.extends hextends ⟨hm.ok.cols, hm.ok.ids, hm.ok.distinct⟩ hm.serial rfl hm.idxPos (fun x hx => .inl ⟨hx, rfl⟩)
  obtain ⟨c, hc⟩ : ∃ c, db.catalog = some c := by
    rcases hc : db.catalog with _ | c
    · rw [Db.table, hc] at htb
      cases htb
    · exact ⟨c, rfl⟩
  refine h.replace (.inr hfree) (fun n => ?_) ⟨rfl, hlen⟩ hholds (h.shared (by simp [hc])) (fun n _ _ _ => rfl)
    (fun n hn => .inl ⟨tb, htb, hnames ▸ hn⟩) (fun tb₂ htb₂ n hn => ?_)
  · rw [Db.table, Db.table, hc]
    show ((c.del name).put newName tb').get n = _
    rw [get_put, SortedMap.get_del]
    split_ifs <;> rfl
  · rw [htb] at htb₂
    cases htb₂
    exact .inl hn

/-! ## Columns and indexes -/

theorem Agrees.catalog_some (htb : db.table name = some tb) : db.catalog.isSome := by
  rcases hc : db.catalog with _ | c
  · rw [Db.table, hc] at htb
    cases htb
  · rfl

theorem Agrees.rewrite (h : Agrees db) {tb' : Table} {t' : Trees} {m' : Tree} (htb : db.table name = some tb)
    (hname : tb'.name = tb.name) (hholds : TableHolds t' tb' m') (hshared : (t' META).isSome)
    (hsame : ∀ n, n ∉ tb.treeNames → n ∉ tb'.treeNames → n ≠ META → t' n = db.trees n)
    (hfresh : ∀ n ∈ tb'.treeNames, n ∈ tb.treeNames ∨ db.trees n = none)
    (hgone : ∀ n ∈ tb.treeNames, n ∈ tb'.treeNames ∨ t' n = none) :
    Agrees (schemaWrite { db with trees := t' } tb').2 := by
  obtain ⟨hnamed, hlen⟩ := h.named name tb htb
  obtain ⟨db', hwrite, htrees, -, htable⟩ :=
    schemaWrite_leaves { db with trees := t' } tb' (Agrees.catalog_some htb) (by rw [hname, hnamed]; exact hlen)
  rw [hwrite]
  have hholds' : TableHolds db'.trees tb' m' := by
    rw [htrees]
    exact hholds
  refine h.replace (.inl (rfl : name = name)) (fun n => ?_) ⟨hname.trans hnamed, hlen⟩ hholds' ?_
    (fun n hn hn' hmeta => ?_) (fun n hn => ?_) (fun tb₂ htb₂ n hn => ?_)
  · rw [htable, hname, hnamed]
    show (if n = name then some tb' else db.table n) = _
    split_ifs <;> rfl
  · rw [htrees]
    exact hshared
  · rw [htrees]
    exact hsame n (hn tb htb) hn' hmeta
  · rcases hfresh n hn with hn | hn
    · exact .inl ⟨tb, htb, hn⟩
    · exact .inr hn
  · rw [htb] at htb₂
    cases htb₂
    rw [htrees]
    exact hgone n hn

theorem addColumnChecks_ok {c : Column} (h : addColumnChecks t tb c = .ok ()) :
    tb.ncols < MAX_ITEMS ∧ ∃ w, V3.walkWhole c.missing = some w := by
  unfold addColumnChecks at h
  split at h
  · cases h
  rename_i hdecl
  constructor
  · split_ifs at h <;> exact not_le.1 ‹_›
  · unfold checkColumnDecl at hdecl
    split at hdecl
    · cases hdecl
    split_ifs at hdecl
    rcases hd : c.dflt with _ | d
    · exact ⟨{ V3.Walk.start with tag := Key.SER_UNKNOWN }, by rw [Column.missing, hd]; decide⟩
    · rw [hd] at hdecl
      dsimp only at hdecl
      split at hdecl
      · cases hdecl
      rename_i hfits
      rw [Column.missing, hd]
      exact valueFits_whole hfits

theorem withColumn_hasSerial (tb : Table) (c : Column) :
    (withColumn tb c).hasSerial = (tb.hasSerial || decide (c.gen = .serial)) := by
  rw [Table.hasSerial, withColumn, List.any_append, Table.hasSerial]
  simp [copyColumn]

theorem tableAddColumn_agrees (h : Agrees db) (htb : db.table name = some tb) (c : Column) :
    Agrees (tableAddColumn db tb c).2 := by
  unfold tableAddColumn
  rcases hchecks : addColumnChecks db.trees tb c with e | ⟨⟩
  · exact h
  dsimp only
  obtain ⟨hcols, hmissing⟩ := addColumnChecks_ok hchecks
  obtain ⟨m, hm⟩ := h.holds name tb htb
  have hshared := h.shared (Agrees.catalog_some htb)
  have hextends : Extends tb (withColumn tb c) [copyColumn c] := by
    refine ⟨rfl, rfl, rfl, fun d hd => ?_⟩
    rw [mem_singleton.1 hd]
    exact hmissing
  have hok : (withColumn tb c).Ok := by
    refine ⟨?_, hm.ok.ids, hm.ok.distinct⟩
    rw [withColumn, List.length_append, List.length_singleton]
    exact hcols
  have hpos : ∀ x ∈ (withColumn tb c).idx, ∀ p ∈ x.cols, p.1 < (withColumn tb c).ncols := by
    intro x hx p hp
    have hlt := hm.idxPos x hx p hp
    rw [Table.ncols, withColumn, List.length_append]
    unfold Table.ncols at hlt
    omega
  have hnames : ∀ n, n ∈ (withColumn tb c).treeNames ↔ n ∈ tb.treeNames ∨ (c.gen = .serial ∧ n = tb.serialTree) := by
    intro n
    rw [mem_treeNames, mem_treeNames, withColumn_hasSerial, Bool.or_eq_true, decide_eq_true_eq]
    constructor
    · rintro (hn | ⟨hs | hs, hn⟩ | hn)
      · exact .inl (.inl hn)
      · exact .inl (.inr (.inl ⟨hs, hn⟩))
      · exact .inr ⟨hs, hn⟩
      · exact .inl (.inr (.inr hn))
    · rintro ((hn | ⟨hs, hn⟩ | hn) | ⟨hs, hn⟩)
      · exact .inl hn
      · exact .inr (.inl ⟨.inl hs, hn⟩)
      · exact .inr (.inr hn)
      · exact .inr (.inl ⟨.inr hs, hn⟩)
  split_ifs with hserial
  · rcases treeCreate_cases tb.serialTree_short db.trees with ⟨-, hcreate⟩ | ⟨hnone, hcreate⟩
    · rw [hcreate]
      exact h
    rw [hcreate]
    dsimp only
    have hother : ∀ n, n ≠ tb.serialTree → (db.trees.set tb.serialTree (some .empty)) n = db.trees n :=
      fun n hn => set_of_ne _ hn _
    refine h.rewrite htb rfl (hm.extends hextends hok (fun _ => ?_) (hother _ (serialTree_ne_rowsTree tb tb).symm) hpos
      (fun x hx => .inl ⟨hx, hother _ (serialTree_ne_tree tb x).symm⟩)) ?_ (fun n hn hn' _ => ?_) (fun n hn => ?_)
      (fun n hn => .inl ((hnames n).2 (.inl hn)))
    · show ((db.trees.set tb.serialTree (some .empty)) tb.serialTree).isSome
      rw [set_self]
      rfl
    · rw [hother META (META_ne_treeName 'q' tb.id)]
      exact hshared
    · refine hother n (fun he => hn' ((hnames n).2 (.inr ⟨hserial.1, he⟩)))
    · rcases (hnames n).1 hn with hn | ⟨-, rfl⟩
      · exact .inl hn
      · exact .inr hnone
  · have hhad : c.gen = .serial → tb.hasSerial = true := by
      intro hc
      by_contra hs
      exact hserial ⟨hc, by simpa using hs⟩
    have hhad' : (withColumn tb c).hasSerial = true → tb.hasSerial = true := by
      rw [withColumn_hasSerial, Bool.or_eq_true, decide_eq_true_eq]
      rintro (hs | hs)
      · exact hs
      · exact hhad hs
    refine h.rewrite htb rfl (hm.extends hextends hok (fun hs => hm.serial (hhad' hs)) rfl hpos
      (fun x hx => .inl ⟨hx, rfl⟩)) hshared (fun _ _ _ _ => rfl) (fun n hn => ?_)
      (fun n hn => .inl ((hnames n).2 (.inl hn)))
    rcases (hnames n).1 hn with hn | ⟨hs, rfl⟩
    · exact .inl hn
    · exact .inl (mem_treeNames.2 (.inr (.inl ⟨hhad hs, rfl⟩)))

theorem tree_not_erased (hok : tb.Ok) {i : Nat} (hx : tb.idx[i]? = some x) :
    x.tree ∉ (tb.idx.eraseIdx i).map Index.tree := by
  obtain ⟨hi, rfl⟩ := List.getElem?_eq_some_iff.1 hx
  have hnd := ((List.getElem_cons_eraseIdx_perm hi).map Index.tree).nodup_iff.2 hok.trees
  rw [List.map_cons, List.nodup_cons] at hnd
  exact hnd.1

theorem indexDrop_agrees (h : Agrees db) (htb : db.table name = some tb) (index : Bytes) :
    Agrees (indexDrop db tb index).2 := by
  unfold indexDrop
  split
  · exact h
  rename_i i _
  split
  · exact h
  rename_i x hx
  obtain ⟨m, hm⟩ := h.holds name tb htb
  have hshared := h.shared (Agrees.catalog_some htb)
  have hmem : x ∈ tb.idx := List.mem_of_getElem? hx
  have hpresent : (db.trees x.tree).isSome := hm.present (mem_treeNames.2 (.inr (.inr ⟨x, hmem, rfl⟩)))
  have hgone := tree_not_erased hm.ok hx
  have hsub : ∀ y ∈ tb.idx.eraseIdx i, y ∈ tb.idx := fun y hy => List.mem_of_mem_eraseIdx hy
  rw [Engine.treeDrop_some x.tree_short hpresent]
  dsimp only
  have hother : ∀ n, n ≠ x.tree → (db.trees.set x.tree none) n = db.trees n := fun n hn => set_of_ne _ hn _
  have hextends : Extends tb (withoutIndex tb i) [] := ⟨rfl, (append_nil _).symm, rfl, fun c hc => by cases hc⟩
  have hok : (withoutIndex tb i).Ok :=
    ⟨hm.ok.cols, fun y hy => hm.ok.ids y (hsub y hy), hm.ok.distinct.sublist ((List.eraseIdx_sublist _ _).map _)⟩
  have hnames : ∀ n, n ∈ (withoutIndex tb i).treeNames → n ∈ tb.treeNames := by
    intro n hn
    rcases mem_treeNames.1 hn with hn | hn | ⟨y, hy, hn⟩
    · exact mem_treeNames.2 (.inl hn)
    · exact mem_treeNames.2 (.inr (.inl hn))
    · exact mem_treeNames.2 (.inr (.inr ⟨y, hsub y hy, hn⟩))
  refine h.rewrite htb rfl (hm.extends hextends hok (fun hs => ?_) (hother _ (rowsTree_ne_tree tb x))
    (fun y hy => hm.idxPos y (hsub y hy)) (fun y hy => .inl ⟨hsub y hy, hother _ (fun he => ?_)⟩)) ?_
    (fun n hn hn' _ => hother n (fun he => ?_)) (fun n hn => .inl (hnames n hn)) (fun n hn => ?_)
  · show ((db.trees.set x.tree none) tb.serialTree).isSome
    rw [hother _ (serialTree_ne_tree tb x)]
    exact hm.serial hs
  · exact hgone (he ▸ List.mem_map_of_mem hy)
  · rw [hother META (META_ne_tree x)]
    exact hshared
  · exact hn (he ▸ mem_treeNames.2 (.inr (.inr ⟨x, hmem, rfl⟩)))
  · by_cases he : n = x.tree
    · right
      rw [he]
      exact set_self ..
    · left
      rcases mem_treeNames.1 hn with hn | hn | ⟨y, hy, rfl⟩
      · exact mem_treeNames.2 (.inl hn)
      · exact mem_treeNames.2 (.inr (.inl hn))
      · refine mem_treeNames.2 (.inr (.inr ⟨y, ?_, rfl⟩))
        obtain ⟨hi, rfl⟩ := List.getElem?_eq_some_iff.1 hx
        rcases mem_cons.1 ((List.getElem_cons_eraseIdx_perm hi).mem_iff.2 hy) with rfl | hy
        · exact absurd rfl he
        · exact hy

/-! ## An index built -/

theorem indexPairs_ok {tb : Table} {x : Index} : ∀ {rows ps : List (Bytes × Bytes)}, indexPairs tb x rows = .ok ps →
    (∀ p ∈ rows, ∃ e ∈ ps, entryOf tb x p.1 p.2 = some e) ∧ ∀ e ∈ ps, ∃ p ∈ rows, entryOf tb x p.1 p.2 = some e
  | [], ps, h => by
    cases h
    exact ⟨fun p hp => (by cases hp), fun e he => (by cases he)⟩
  | (rk, rv) :: rows, ps, h => by
    rw [indexPairs] at h
    split at h
    · cases h
    rename_i v hv
    split at h
    · cases h
    rename_i e he
    split at h
    · cases h
    rename_i ps' hrest
    cases h
    obtain ⟨hall, honly⟩ := indexPairs_ok hrest
    have hentry : entryOf tb x rk rv = some (e.key, if e.uniqueForm then rk else []) := by
      rw [entryOf, hv]
      dsimp only
      rw [he]
      rfl
    constructor
    · intro p hp
      rcases mem_cons.1 hp with rfl | hp
      · exact ⟨_, mem_cons_self .., hentry⟩
      · obtain ⟨e', he', hp'⟩ := hall p hp
        exact ⟨e', List.mem_cons_of_mem _ he', hp'⟩
    · intro e' he'
      rcases mem_cons.1 he' with rfl | he'
      · exact ⟨_, mem_cons_self .., hentry⟩
      · obtain ⟨p, hp, hp'⟩ := honly e' he'
        exact ⟨p, List.mem_cons_of_mem _ hp, hp'⟩

theorem putSorted_same (tb : Table) {x : Index} : ∀ (prev : Option Bytes) {t : Trees} (ps : List (Bytes × Bytes)),
    (t x.tree).isSome → ((putSorted tb x prev t ps).2 x.tree).isSome ∧
      ∀ n, n ≠ x.tree → (putSorted tb x prev t ps).2 n = t n
  | _, _, [], h => ⟨h, fun _ _ => rfl⟩
  | prev, t, (k, v) :: ps, h => by
    rw [putSorted]
    split_ifs with hprev
    · exact ⟨h, fun _ _ => rfl⟩
    by_cases hr : Room t x.tree k
    · obtain ⟨i, hi⟩ := Option.isSome_iff_exists.1 h
      rw [put_room x.tree_short hr.1 hi]
      dsimp only
      have hstands : ((t.set x.tree (some (i.put k v))) x.tree).isSome := by
        rw [set_self]
        rfl
      obtain ⟨hstill, hsame⟩ := putSorted_same tb (some k) ps hstands
      exact ⟨hstill, fun n hn => (hsame n hn).trans (set_of_ne _ hn _)⟩
    · obtain ⟨rc, hrc, hput⟩ := put_refused x.tree_short hr v
      rw [hput]
      cases rc <;> first | exact absurd rfl hrc | exact ⟨h, fun _ _ => rfl⟩

theorem putSorted_ok {tb : Table} {x : Index} {t' : Trees} : ∀ {prev : Option Bytes} {t : Trees} {i : Tree}
    {ps : List (Bytes × Bytes)}, putSorted tb x prev t ps = (.ok (), t') → t x.tree = some i →
    ps.Pairwise (fun a b => a.1 ≤ b.1) → (∀ p, prev = some p → ∀ q ∈ ps, p ≤ q.1) →
    (∀ a b, i.get a = some b → a.length ≤ GS_MAX_KEY ∧ ∃ p, prev = some p ∧ a ≤ p) →
    ∃ i', t' x.tree = some i' ∧ (∀ a b, i'.get a = some b ↔ i.get a = some b ∨ (a, b) ∈ ps) ∧
      ∀ a b, i'.get a = some b → a.length ≤ GS_MAX_KEY
  | _, _, i, [], h, hi, _, _, hheld => by
    cases h
    exact ⟨i, hi, fun a b => by simp, fun a b hab => (hheld a b hab).1⟩
  | prev, t, i, (k, v) :: ps, h, hi, hsorted, hle, hheld => by
    rw [putSorted] at h
    by_cases hprev : prev = some k
    · rw [if_pos hprev] at h
      cases h
    rw [if_neg hprev] at h
    by_cases hr : Room t x.tree k
    swap
    · obtain ⟨rc, hrc, hput⟩ := put_refused x.tree_short hr v
      rw [hput] at h
      cases rc <;> first | exact absurd rfl hrc | cases h
    rw [put_room x.tree_short hr.1 hi] at h
    dsimp only at h
    obtain ⟨hfirst, hrest⟩ := List.pairwise_cons.1 hsorted
    -- what is there is below the new key
    have hbelow : ∀ a b, i.get a = some b → a < k := by
      intro a b hab
      obtain ⟨-, p, hp, hap⟩ := hheld a b hab
      refine lt_of_le_of_ne (hap.trans (hle p hp _ (mem_cons_self ..))) ?_
      rintro rfl
      have hpa : p = a := le_antisymm (hle p hp _ (mem_cons_self ..)) hap
      exact hprev (hpa ▸ hp)
    obtain ⟨i', hi', hget, hshort⟩ := putSorted_ok h (set_self ..) hrest
      (fun p hp q hq => Option.some.inj hp ▸ hfirst q hq) (fun a b hab => by
        rw [get_put] at hab
        split_ifs at hab with ha
        · exact ⟨ha ▸ hr.1, k, rfl, ha.le⟩
        · exact ⟨(hheld a b hab).1, k, rfl, (hbelow a b hab).le⟩)
    refine ⟨i', hi', fun a b => ?_, hshort⟩
    rw [hget, get_put, mem_cons]
    constructor
    · rintro (hab | hab)
      · split_ifs at hab with ha
        · exact .inr (.inl (by rw [ha, ← Option.some.inj hab]))
        · exact .inl hab
      · exact .inr (.inr hab)
    · rintro (hab | hab | hab)
      · rw [if_neg (hbelow a b hab).ne]
        exact .inl hab
      · obtain ⟨rfl, rfl⟩ := Prod.mk.inj hab
        rw [if_pos rfl]
        exact .inl rfl
      · exact .inr hab

/-- An index built from the rows holds an entry of each and nothing else. -/
theorem indexBuild_leaves {m : Tree} (hrows : t tb.rowsTree = some m) (hx : t x.tree = some .empty) :
    ((indexBuild t tb x).2 x.tree).isSome ∧ (∀ n, n ≠ x.tree → (indexBuild t tb x).2 n = t n) ∧
      ((indexBuild t tb x).1 = .ok () → ∃ i, (indexBuild t tb x).2 x.tree = some i ∧
        (∀ a b, i.get a = some b ↔ ∃ k row, m.get k = some row ∧ entryOf tb x k row = some (a, b)) ∧
        (∀ k row, m.get k = some row → (entryOf tb x k row).isSome) ∧
        ∀ a b, i.get a = some b → a.length ≤ GS_MAX_KEY) := by
  have hstands : (t x.tree).isSome := by rw [hx]; rfl
  unfold indexBuild
  rw [Engine.treeFind_some tb.rowsTree_short hrows]
  dsimp only
  rcases hps : indexPairs tb x m.entries with e | ps
  · exact ⟨hstands, fun _ _ => rfl, fun h => by cases h⟩
  dsimp only
  obtain ⟨hstill, hsame⟩ := putSorted_same tb none (ps.mergeSort (fun a b => decide (a.1 ≤ b.1))) hstands
  refine ⟨hstill, hsame, fun hok => ?_⟩
  obtain ⟨hall, honly⟩ := indexPairs_ok hps
  have hsorted : (ps.mergeSort (fun a b => decide (a.1 ≤ b.1))).Pairwise (fun a b => a.1 ≤ b.1) := by
    have htrans : ∀ a b c : Bytes × Bytes, decide (a.1 ≤ b.1) = true → decide (b.1 ≤ c.1) = true →
        decide (a.1 ≤ c.1) = true :=
      fun a b c hab hbc => decide_eq_true ((of_decide_eq_true hab).trans (of_decide_eq_true hbc))
    have htotal : ∀ a b : Bytes × Bytes, (decide (a.1 ≤ b.1) || decide (b.1 ≤ a.1)) = true :=
      fun a b => by simpa using le_total a.1 b.1
    exact (List.pairwise_mergeSort htrans htotal ps).imp (fun hab => of_decide_eq_true hab)
  rcases hput : putSorted tb x none t (ps.mergeSort (fun a b => decide (a.1 ≤ b.1))) with ⟨r, t'⟩
  rw [hput] at hok
  dsimp only at hok
  subst hok
  obtain ⟨i, hi, hget, hshort⟩ := putSorted_ok hput hx hsorted (fun p hp => by cases hp)
    (fun a b hab => by rw [get_empty] at hab; cases hab)
  refine ⟨i, hi, fun a b => ?_, fun k row hk => ?_, hshort⟩
  · rw [hget, get_empty, List.mem_mergeSort]
    constructor
    · rintro (hab | hab)
      · cases hab
      · obtain ⟨p, hp, he⟩ := honly _ hab
        exact ⟨p.1, p.2, get_eq_some_iff.2 hp, he⟩
    · rintro ⟨k, row, hk, he⟩
      obtain ⟨e, hmem, he'⟩ := hall _ (get_eq_some_iff.1 hk)
      rw [he] at he'
      exact .inr (Option.some.inj he' ▸ hmem)
  · obtain ⟨e, -, he⟩ := hall _ (get_eq_some_iff.1 hk)
    simp [he]

def IndexMeets (t : Trees) (tb : Table) (d : IndexDecl) : Prop :=
  indexChecks tb d = .ok () → ∀ m, t tb.rowsTree = some m → ∀ k row v, m.get k = some row → rowDecode tb row = .ok v →
    ∀ p ∈ d.cols, Key.Readable (keyFlags (tb.col p.1) p.2) (v.getD p.1 [])

theorem indexChecks_ok {d : IndexDecl} (h : indexChecks tb d = .ok ()) : ∀ p ∈ d.cols, p.1 < tb.ncols := by
  unfold indexChecks at h
  split at h
  · cases h
  split at h
  · cases h
  split at h
  · cases h
  split at h
  · cases h
  rename_i hpos
  intro p hp
  exact checkPositions_ok hpos p.1 (List.mem_map_of_mem hp)

theorem withIndex_decodes {row : Bytes} {v : Vals} :
    rowDecode (withIndex tb x) row = .ok v ↔ rowDecode tb row = .ok v := by
  constructor
  · intro h
    have h' : rowDecode tb row = .ok (v ++ [].map Column.missing) :=
      rowDecode_extends (show tb.cols = (withIndex tb x).cols ++ [] from (append_nil _).symm) h
    simpa using h'
  · intro h
    have h' : rowDecode (withIndex tb x) row = .ok (v ++ [].map Column.missing) :=
      rowDecode_extends (show (withIndex tb x).cols = tb.cols ++ [] from (append_nil _).symm) h
    simpa using h'

theorem indexCreate_agrees (h : Agrees db) (htb : db.table name = some tb) (d : IndexDecl)
    (hmeets : IndexMeets db.trees tb d) : Agrees (indexCreate db tb d).2 := by
  unfold indexCreate
  rcases hchecks : indexChecks tb d with e | ⟨⟩
  · exact h
  dsimp only
  obtain ⟨m, hm⟩ := h.holds name tb htb
  have hshared := h.shared (Agrees.catalog_some htb)
  obtain ⟨hnext, hmeta, hlt⟩ := nextId_leaves db.trees
  rcases hid : nextId db.trees with ⟨e | id, t₁⟩ <;> rw [hid] at hnext hmeta hlt <;> dsimp only at hnext hmeta hlt ⊢
  · exact h.same (fun _ => rfl) (fun _ => hmeta hshared) hnext
  have hlt := hlt id rfl
  generalize hx : (⟨d.name, id, d.cols, d.unique⟩ : Index) = x
  have hcols : x.cols = d.cols := by rw [← hx]
  have hxid : x.id = id := by rw [← hx]
  rcases treeCreate_cases x.tree_short t₁ with ⟨-, hcreate⟩ | ⟨hnone, hcreate⟩
  · rw [hcreate]
    exact h.same (fun _ => rfl) (fun _ => hmeta hshared) hnext
  rw [hcreate]
  dsimp only
  have hnone₀ : db.trees x.tree = none := (hnext x.tree (META_ne_tree x).symm).symm.trans hnone
  have hnotree : x.tree ∉ tb.treeNames := by
    intro hmem
    have hsome := hm.present hmem
    rw [hnone₀] at hsome
    cases hsome
  have hother : ∀ n, n ≠ x.tree → (t₁.set x.tree (some .empty)) n = t₁ n := fun n hn => set_of_ne _ hn _
  have hrows : (t₁.set x.tree (some .empty)) (withIndex tb x).rowsTree = some m :=
    (hother _ (rowsTree_ne_tree tb x)).trans
      ((hnext tb.rowsTree (META_ne_treeName 'r' tb.id).symm).trans hm.rows)
  obtain ⟨hstill, hsame, hbuilt⟩ := indexBuild_leaves hrows (set_self ..)
  rcases hbuild : indexBuild (t₁.set x.tree (some .empty)) (withIndex tb x) x with ⟨e | ⟨⟩, t₂⟩ <;>
    rw [hbuild] at hstill hsame hbuilt <;> dsimp only at hstill hsame hbuilt ⊢
  · -- the tree goes again
    rw [Engine.treeDrop_some x.tree_short hstill]
    refine h.same (fun _ => rfl) (fun _ => ?_) (fun n hn => ?_)
    · show ((t₂.set x.tree none) META).isSome
      rw [set_of_ne _ (META_ne_tree x), hsame META (META_ne_tree x),
        hother META (META_ne_tree x)]
      exact hmeta hshared
    · show (t₂.set x.tree none) n = db.trees n
      by_cases he : n = x.tree
      · rw [he, set_self, hnone₀]
      · rw [set_of_ne _ he, hsame n he, hother n he, hnext n hn]
  obtain ⟨i, hi, hget, hall, hshort⟩ := hbuilt rfl
  have houts : ∀ n, n ≠ x.tree → n ≠ META → t₂ n = db.trees n :=
    fun n hn hmeta => (hsame n hn).trans ((hother n hn).trans (hnext n hmeta))
  have hextends : Extends tb (withIndex tb x) [] := ⟨rfl, (append_nil _).symm, rfl, fun c hc => by cases hc⟩
  have hxpos : ∀ p ∈ x.cols, p.1 < tb.ncols := hcols ▸ indexChecks_ok hchecks
  have hnew : x.id ∉ tb.idx.map Index.id := by
    intro hmem
    obtain ⟨y, hy, hid'⟩ := List.mem_map.1 hmem
    refine hnotree (mem_treeNames.2 (.inr (.inr ⟨y, hy, ?_⟩)))
    rw [Index.tree, Index.tree, hid']
  have hok : (withIndex tb x).Ok := by
    refine ⟨hm.ok.cols, fun y hy => ?_, ?_⟩
    · rcases mem_append.1 hy with hy | hy
      · exact hm.ok.ids y hy
      · rw [mem_singleton.1 hy, hxid]
        exact hlt
    · rw [withIndex, List.map_append, List.map_singleton]
      refine List.nodup_append.2 ⟨hm.ok.distinct, List.nodup_singleton _, fun a ha b hb => ?_⟩
      rw [mem_singleton.1 hb]
      rintro rfl
      exact hnew ha
  have hread : ∀ k row v, m.get k = some row → rowDecode (withIndex tb x) row = .ok v →
      IndexReads (withIndex tb x) x v := by
    intro k row v hk hv p hp
    exact hmeets hchecks m hm.rows k row v hk (withIndex_decodes.1 hv) p (hcols ▸ hp)
  have hindex : IndexOk t₂ (withIndex tb x) m x := by
    refine ⟨i, hi, ⟨hget, fun k row e hk he => ?_⟩, hshort⟩
    obtain ⟨v, hv⟩ := hm.row k row hk
    have hdec := withIndex_decodes (x := x) |>.2 hv.decoded
    rw [entryOf, hdec] at he
    obtain ⟨e', he', rfl⟩ := Option.map_eq_some_iff.1 he
    exact leadsTo_entry ⟨hv.whole.length, hv.whole.values⟩ (hread k row v hk hdec) he'
  have hholds : TableHolds t₂ (withIndex tb x) m := by
    refine hm.extends hextends hok (fun hs => ?_) (houts _ (rowsTree_ne_tree tb x) (META_ne_treeName 'r' tb.id).symm)
      (fun y hy => ?_) (fun y hy => ?_)
    · rw [houts _ (serialTree_ne_tree _ x) (META_ne_treeName 'q' _).symm]
      exact hm.serial hs
    · rcases mem_append.1 hy with hy | hy
      · exact hm.idxPos y hy
      · rw [mem_singleton.1 hy]
        exact hxpos
    · rcases mem_append.1 hy with hy | hy
      · refine .inl ⟨hy, houts _ (fun he => hnotree ?_) (META_ne_treeName 'i' y.id).symm⟩
        exact mem_treeNames.2 (.inr (.inr ⟨y, hy, he.symm⟩))
      · rw [mem_singleton.1 hy]
        refine .inr ⟨fun k row v hk hv => ⟨hread k row v hk hv, ?_⟩, hindex⟩
        have hsome := hall k row hk
        rw [entryOf, hv] at hsome
        simpa using hsome
  have hnames : ∀ n, n ∈ (withIndex tb x).treeNames ↔ n ∈ tb.treeNames ∨ n = x.tree := by
    intro n
    rw [mem_treeNames, mem_treeNames]
    constructor
    · rintro (hn | hn | ⟨y, hy, hn⟩)
      · exact .inl (.inl hn)
      · exact .inl (.inr (.inl hn))
      · rcases mem_append.1 hy with hy | hy
        · exact .inl (.inr (.inr ⟨y, hy, hn⟩))
        · exact .inr (mem_singleton.1 hy ▸ hn)
    · rintro ((hn | hn | ⟨y, hy, hn⟩) | hn)
      · exact .inl hn
      · exact .inr (.inl hn)
      · exact .inr (.inr ⟨y, List.mem_append_left _ hy, hn⟩)
      · exact .inr (.inr ⟨x, List.mem_append_right _ (List.mem_singleton_self _), hn⟩)
  have hwritten : Agrees (schemaWrite { db with trees := t₂ } (withIndex tb x)).2 := by
    refine h.rewrite htb rfl hholds ?_ (fun n hn hn' hmeta => ?_) (fun n hn => ?_)
      (fun n hn => .inl ((hnames n).2 (.inl hn)))
    · rw [hsame META (META_ne_tree x), hother META (META_ne_tree x)]
      exact hmeta hshared
    · exact houts n (fun he => hn' ((hnames n).2 (.inr he))) hmeta
    · rcases (hnames n).1 hn with hn | rfl
      · exact .inl hn
      · exact .inr hnone₀
  obtain ⟨db', hwrite, -⟩ := schemaWrite_leaves { db with trees := t₂ } (withIndex tb x) (Agrees.catalog_some htb)
    (by rw [withIndex, (h.named name tb htb).1]; exact (h.named name tb htb).2)
  rw [hwrite] at hwritten ⊢
  exact hwritten

/-! ## Runs -/

/-- A call on tables and rows; a table is opened by its name. -/
inductive Op where
  | create (d : TableDecl) | rename (name newName : Bytes) | addColumn (name : Bytes) (c : Column)
  | createIndex (name : Bytes) (d : IndexDecl) | dropIndex (name index : Bytes)
  | insert (name : Bytes) (vals : List (Option Bytes))
  | update (name rowkey : Bytes) (vals : List (Option Bytes)) | delete (name rowkey : Bytes)

def onTable (db : Db) (name : Bytes) (f : Table → Db) : Db :=
  match tableOpen db name with
  | .ok tb => f tb
  | .error _ => db

/-- What a call leaves, whatever it answers. -/
def Op.run (db : Db) : Op → Db
  | .create d => (tableCreate db d).2
  | .rename name newName => (tableRename db name newName).2
  | .addColumn name c => onTable db name (fun tb => (tableAddColumn db tb c).2)
  | .createIndex name d => onTable db name (fun tb => (indexCreate db tb d).2)
  | .dropIndex name index => onTable db name (fun tb => (indexDrop db tb index).2)
  | .insert name vals => onTable db name (fun tb => { db with trees := (rowInsert db.trees tb vals).2 })
  | .update name rowkey vals => onTable db name (fun tb => { db with trees := (rowUpdate db.trees tb rowkey vals).2 })
  | .delete name rowkey => onTable db name (fun tb => { db with trees := (rowDelete db.trees tb rowkey).2 })

/-- What the checks of a call leave out. -/
def Op.Meets (db : Db) : Op → Prop
  | .createIndex name d => ∀ tb, tableOpen db name = .ok tb → IndexMeets db.trees tb d
  | .insert name vals => ∀ tb, tableOpen db name = .ok tb → InsertMeets db.trees tb vals
  | .update name rowkey vals => ∀ tb, tableOpen db name = .ok tb → UpdateMeets db.trees tb rowkey vals
  | _ => True

/-- No trees and no catalog. -/
def Db.none : Db := ⟨Option.none, fun _ => Option.none⟩

/-- The states runs reach, each call of them under a condition. -/
inductive Runs (P : Db → Op → Prop) : Db → Prop
  | start : Runs P Db.none
  | step {db : Db} (op : Op) : Runs P db → P db op → Runs P (op.run db)

theorem agrees_none : Agrees Db.none where
  shared h := by cases h
  named name tb h := by cases h
  holds name tb h := by cases h
  apart name tb name' tb' n h := by cases h
  owned n hn h := by cases h

theorem Agrees.confined (h : Agrees db) {t' : Trees} {m' : Tree} (htb : db.table name = some tb)
    (hholds : TableHolds t' tb m') (hc : Confined tb db.trees t') : Agrees { db with trees := t' } := by
  obtain ⟨hnamed, hlen⟩ := h.named name tb htb
  refine h.replace (.inl (rfl : name = name)) (fun n => ?_) ⟨hnamed, hlen⟩ hholds
    (hc.shared (h.shared (Agrees.catalog_some htb))) (fun n _ hn' hmeta => hc.same n hn' hmeta)
    (fun n hn => .inl ⟨tb, htb, hn⟩) (fun tb₂ htb₂ n hn => ?_)
  · show db.table n = _
    split_ifs with he
    · rw [he, htb]
    · rfl
  · rw [htb] at htb₂
    cases htb₂
    exact .inl hn

/-- **One call keeps rows and indexes in step.** -/
theorem run_agrees (h : Agrees db) (op : Op) (hmeets : op.Meets db) : Agrees (op.run db) := by
  have hopened : ∀ (name : Bytes) (f : Table → Db), (∀ tb, tableOpen db name = .ok tb → Agrees (f tb)) →
      Agrees (onTable db name f) := by
    intro name f hf
    unfold onTable
    rcases hopen : tableOpen db name with e | tb
    · exact h
    · exact hf tb hopen
  cases op with
  | create d => exact tableCreate_agrees h d
  | rename name newName => exact tableRename_agrees h name newName
  | addColumn name c => exact hopened name _ (fun tb htb => tableAddColumn_agrees h (tableOpen_ok htb) c)
  | createIndex name d =>
    exact hopened name _ (fun tb htb => indexCreate_agrees h (tableOpen_ok htb) d (hmeets tb htb))
  | dropIndex name index => exact hopened name _ (fun tb htb => indexDrop_agrees h (tableOpen_ok htb) index)
  | insert name vals =>
    refine hopened name _ (fun tb hopen => ?_)
    have htb := tableOpen_ok hopen
    obtain ⟨m, hm⟩ := h.holds name tb htb
    obtain ⟨m', hm', hc⟩ := rowInsert_holds hm (h.shared (Agrees.catalog_some htb)) (hmeets tb hopen)
    exact h.confined htb hm' hc
  | update name rowkey vals =>
    refine hopened name _ (fun tb hopen => ?_)
    have htb := tableOpen_ok hopen
    obtain ⟨m, hm⟩ := h.holds name tb htb
    obtain ⟨m', hm', hc⟩ := rowUpdate_holds hm (hmeets tb hopen)
    exact h.confined htb hm' hc
  | delete name rowkey =>
    refine hopened name _ (fun tb hopen => ?_)
    have htb := tableOpen_ok hopen
    obtain ⟨m, hm⟩ := h.holds name tb htb
    obtain ⟨m', hm', hc⟩ := rowDelete_holds rowkey hm
    exact h.confined htb hm' hc

theorem runs_agrees (h : Runs Op.Meets db) : Agrees db := by
  induction h with
  | start => exact agrees_none
  | step op _ hmeets ih => exact run_agrees ih op hmeets

/-! ## What a reader of the tables finds -/

/-- An index beside its table's rows: one entry for each row and none else, each leading back to its row. -/
structure EntriesAgree (tb : Table) (x : Index) (m i : Tree) : Prop where
  entry : ∀ k row, m.get k = some row →
    ∃ v e, rowDecode tb row = .ok v ∧ indexEntry tb x v k = some e ∧ i.get e.key = some (e.value k)
  noneElse : ∀ a b, i.get a = some b → ∃ k row v e, m.get k = some row ∧ rowDecode tb row = .ok v ∧
    indexEntry tb x v k = some e ∧ a = e.key ∧ b = e.value k ∧ indexRowkey tb x a b = .ok k
  one : ∀ k row v e k' row' v' e', m.get k = some row → rowDecode tb row = .ok v → indexEntry tb x v k = some e →
    m.get k' = some row' → rowDecode tb row' = .ok v' → indexEntry tb x v' k' = some e' → e.key = e'.key → k = k'
  /-- two rows of a unique index do not share columns that are all present -/
  unique : x.unique = true → ∀ k row v k' row' v' c, m.get k = some row → rowDecode tb row = .ok v →
    m.get k' = some row' → rowDecode tb row' = .ok v' → indexColumns tb v x.cols [] false = some (c, false) →
    indexColumns tb v' x.cols [] false = some (c, false) → k = k'

structure RowsAndIndexesAgree (db : Db) : Prop where
  rows : ∀ name tb, tableOpen db name = .ok tb → ∃ m, db.trees tb.rowsTree = some m ∧
    (∀ k row, m.get k = some row → ∃ v, rowDecode tb row = .ok v ∧ KeyOf tb v k) ∧
    ∀ x ∈ tb.idx, ∃ i, db.trees x.tree = some i ∧ EntriesAgree tb x m i
  trees : ∀ n, TableTree n → (db.trees n).isSome → ∃ name tb, tableOpen db name = .ok tb ∧ n ∈ tb.treeNames

theorem TableHolds.entriesAgree {m i : Tree} (h : TableHolds t tb m) (hx : x ∈ tb.idx)
    (hi : Indexed (entryOf tb x) (leadsTo tb x) m i) : EntriesAgree tb x m i := by
  have hone : ∀ k row v e k' row' v' e', m.get k = some row → rowDecode tb row = .ok v → indexEntry tb x v k = some e →
      m.get k' = some row' → rowDecode tb row' = .ok v' → indexEntry tb x v' k' = some e' → e.key = e'.key →
      k = k' := by
    intro k row v e k' row' v' e' hk hv he hk' hv' he' hkey
    have hentry : entryOf tb x k row = some (e.key, e.value k) := by rw [entryOf, hv]; dsimp only; rw [he]; rfl
    have hentry' : entryOf tb x k' row' = some (e'.key, e'.value k') := by rw [entryOf, hv']; dsimp only; rw [he']; rfl
    exact hi.unique hk hentry hk' hentry' hkey
  refine ⟨fun k row hk => ?_, fun a b hab => ?_, hone, fun hu k row v k' row' v' c hk hv hk' hv' hc hc' => ?_⟩
  · obtain ⟨v, hv⟩ := h.row k row hk
    obtain ⟨e, he⟩ := Option.isSome_iff_exists.1 (hv.entry x hx)
    exact ⟨v, e, hv.decoded, he, (hi.holds _ _).2 ⟨k, row, hk, by rw [hv.entryOf_eq, he]; rfl⟩⟩
  · obtain ⟨k, row, hk, he⟩ := (hi.holds a b).1 hab
    obtain ⟨v, hv⟩ := h.row k row hk
    rw [hv.entryOf_eq] at he
    obtain ⟨e, hentry, heq⟩ := Option.map_eq_some_iff.1 he
    obtain ⟨rfl, rfl⟩ := Prod.mk.inj heq
    exact ⟨k, row, v, e, hk, hv.decoded, hentry, rfl, rfl, indexRowkey_entry hv.whole.values (hv.reads x hx) hentry⟩
  · have hform : ∀ {w : Vals} {r : Bytes}, indexColumns tb w x.cols [] false = some (c, false) →
        indexEntry tb x w r = some ⟨c, true⟩ := by
      intro w r hw
      rw [indexEntry, hw]
      dsimp only
      rw [if_pos (by simp [hu])]
    exact hone k row v _ k' row' v' _ hk hv (hform hc) hk' hv' (hform hc') rfl

theorem Agrees.opens (h : Agrees db) (htb : db.table name = some tb) : tableOpen db name = .ok tb := by
  obtain ⟨-, hlen⟩ := h.named name tb htb
  rcases hc : db.catalog with _ | c
  · rw [Db.table, hc] at htb
    cases htb
  · rw [Db.table, hc] at htb
    unfold tableOpen catalogGet
    rw [hc]
    dsimp only
    rw [if_neg (not_lt.2 (MAX_NAME_short hlen)), show c.get name = some tb from htb]

def namesDecl : TableDecl where
  name := text "names"
  cols := [⟨text "n", .integer, [], true, none, .none, [], 0, none⟩,
  ⟨text "name", .string, [], false, none, .none, [], 0, none⟩]
  key := [0]

def namesMade : Db :=
  (Op.createIndex (text "names") ⟨text "byname", [(1, false)], false⟩).run ((Op.create namesDecl).run Db.none)

/-- And a row whose name has so many letters. -/
def namesRun (letters : Nat) : Db := (Op.insert (text "names") (nameRow letters)).run namesMade

/-- The entries in the names' rows and in their indexes. -/
def namesHeld (db : Db) : Option Nat × List (Option Nat) :=
  match tableOpen db (text "names") with
  | .ok tb => ((db.trees tb.rowsTree).map (fun m => m.entries.length),
      tb.idx.map (fun x => (db.trees x.tree).map (fun i => i.entries.length)))
  | .error _ => (none, [])

end Gsql
end Gbasic
