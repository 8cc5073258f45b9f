import Gbasic.SqlCheckRun
/-!
# SqlIndexName — an index name means one index

CREATE INDEX and DROP INDEX look for the name among the indexes of every table.  The index of a UNIQUE is named for the
table and the columns, and only the table's own indexes are asked whether they have the name: a table of another name, a
table renamed and an index that was given the name can all have it already.
-/
namespace Gbasic
namespace Gsql

open Engine (Trees Bytes treeDrop)

variable {i : Nat} {x y : Index} {n index table : Bytes} {ifExists : Bool}

/-! ## The statements -/

/-- `find_index`, over the tables of the catalog in their order: the table that has the index, and its position. -/
def findIndexFrom (db : Db) (name : Bytes) : List Bytes → Except Error (Option (Table × Nat))
  | [] => .ok none
  | n :: ns =>
    match tableOpen db n with
    | .error e => .error e
    | .ok tb =>
      match tb.idx.findIdx? (fun x => x.name = name) with
      | some i => .ok (some (tb, i))
      | none => findIndexFrom db name ns

def Db.names (db : Db) : List Bytes := (db.catalog.map (fun c => c.entries.map Prod.fst)).getD []

def findIndex (db : Db) (name : Bytes) : Except Error (Option (Table × Nat)) := findIndexFrom db name db.names

def dropTrees : Trees → List Bytes → Lsm.Status × Trees
  | t, [] => (.ok, t)
  | t, n :: ns =>
    match treeDrop t n with
    | (.ok, t) => dropTrees t ns
    | r => r

def tableDrop (db : Db) (name : Bytes) : Except Error Unit × Db :=
  match tableOpen db name with
  | .error e => (.error e, db)
  | .ok tb =>
    match dropTrees db.trees (tb.rowsTree :: (tb.idx.map Index.tree ++ if tb.hasSerial then [tb.serialTree]
      else [])) with
    | (.ok, t) =>
      let db := { db with catalog := db.catalog.map (·.del name), trees := t }
      if tb.key = [] then
        match Engine.del t META (metaTableKey tb) with
        | (.ok, t) => (.ok (), { db with trees := t })
        | (.notFound, t) => (.ok (), { db with trees := t })
        | (st, t) => (.error (storage st "dropping a table"), { db with trees := t })
      else (.ok (), db)
    | (st, t) => (.error (storage st "dropping a table"), { db with trees := t })

def Schema.createIndex (s : Schema) (ifNotExists : Bool) (index table : Bytes) (cols : List (Bytes × Bool))
    (unique : Bool) : Except Error Schema :=
  match findIndex s.db index with
  | .error e => .error e
  | .ok (some _) =>
    if ifNotExists then .ok s else .error (fail .exists (text "there is already an index `" ++ index ++ text "`"))
  | .ok none =>
    match tableOpen s.db table with
    | .error e =>
      if e.code = .notFound then .error (fail .notFound (text "there is no table `" ++ table ++ text "`")) else .error e
    | .ok tb =>
      match cols.mapM (fun c => (tb.find c.1).map (fun i => (i, c.2))) with
      | none =>
        .error (fail .notFound (text "table " ++ table ++ text " has no column `" ++
          ((cols.map Prod.fst).find? (fun c => (tb.find c).isNone)).getD [] ++ text "`"))
      | some pos =>
        match indexCreate s.db tb ⟨index, pos, unique⟩ with
        | (.error e, _) => .error e
        | (.ok (), db) => .ok { s with db := db }

def Schema.dropIndex (s : Schema) (ifExists : Bool) (index : Bytes) : Except Error Schema :=
  match findIndex s.db index with
  | .error e => .error e
  | .ok none => if ifExists then .ok s else .error (fail .notFound (text "there is no index `" ++ index ++ text "`"))
  | .ok (some (tb, _)) =>
    match indexDrop s.db tb index with
    | (.error e, _) => .error e
    | (.ok (), db) => .ok { s with db := db }

/-- `fk_follow` and `ck_follow`, of a table dropped. -/
def dropConstraints (cs : SortedMap Bytes Constraint) (table : Bytes) : SortedMap Bytes Constraint :=
  (cs.entries.filter (fun e => e.2.table = table)).foldl (fun cs e => cs.del e.1) cs

def Schema.dropTable (s : Schema) (ifExists : Bool) (table : Bytes) : Except Error Schema :=
  match tableDrop s.db table with
  | (.error e, _) =>
    if e.code = .notFound ∧ ifExists then .ok { s with constraints := dropConstraints s.constraints table }
    else .error e
  | (.ok (), db) => .ok ⟨db, dropConstraints s.constraints table⟩

/-- A statement that makes, renames or drops a table or an index. -/
inductive IndexStatement where
  | createTable (ifNotExists : Bool) (name : Bytes) (cols : List ColDef) (key : List Nat) (uniques : List (List Bytes))
      (checks : List SqlCheck)
  | createIndex (ifNotExists : Bool) (index table : Bytes) (cols : List (Bytes × Bool)) (unique : Bool)
  | rename (table newName : Bytes)
  | dropIndex (ifExists : Bool) (index : Bytes)
  | dropTable (ifExists : Bool) (table : Bytes)

def IndexStatement.run (r : RowHost) (s : Schema) : IndexStatement → Except Error Schema
  | .createTable ifNotExists name cols key uniques checks =>
    if s.skips ifNotExists name then .ok s else s.createTable r name cols key uniques checks
  | .createIndex ifNotExists index table cols unique => s.createIndex ifNotExists index table cols unique
  | .rename table newName => s.rename table newName
  | .dropIndex ifExists index => s.dropIndex ifExists index
  | .dropTable ifExists table => s.dropTable ifExists table

/-! ## Indexes and their names -/

def HasIndex (db : Db) (n : Bytes) (i : Nat) (x : Index) : Prop := ∃ tb, db.table n = some tb ∧ tb.idx[i]? = some x

/-- No two indexes, on one table or on two, have the same name. -/
def NamesApart (db : Db) : Prop :=
  ∀ n i x n' i' x', HasIndex db n i x → HasIndex db n' i' x' → x.name = x'.name → n = n' ∧ i = i'

/-- The names that a CREATE TABLE makes for its UNIQUEs are no index's. -/
def IndexStatement.Fresh (s : Schema) : IndexStatement → Prop
  | .createTable ifNotExists name _ _ uniques _ =>
    s.skips ifNotExists name = true ∨
      ∀ cols ∈ uniques, ∀ n i x, HasIndex s.db n i x → x.name ≠ uniqueName name cols
  | _ => True

/-- The states that successful statements reach, each under a condition. -/
inductive IndexRuns (r : RowHost) (P : Schema → IndexStatement → Prop) : Schema → Prop
  | start : IndexRuns r P ⟨Db.none, .empty⟩
  | step {s s' : Schema} (stmt : IndexStatement) :
    IndexRuns r P s → P s stmt → stmt.run r s = .ok s' → IndexRuns r P s'

section
variable {r : RowHost} {db db' : Db} {tb : Table} {name : Bytes} {s s' : Schema}

def Named (db : Db) : Prop := ∀ n tb, db.table n = some tb → tb.name = n

/-! ## What each statement leaves -/

theorem mem_names (h : db.table n = some tb) : n ∈ db.names := by
  unfold Db.table at h
  unfold Db.names
  rcases hc : db.catalog with _ | c <;> rw [hc] at h
  · cases h
  · exact List.mem_map.2 ⟨(n, tb), SortedMap.get_eq_some_iff.1 h, rfl⟩

theorem findIndexFrom_some : ∀ {ns : List Bytes} {tb : Table} {i : Nat},
    findIndexFrom db name ns = .ok (some (tb, i)) →
      ∃ n x, db.table n = some tb ∧ tb.idx[i]? = some x ∧ x.name = name ∧
        tb.idx.findIdx? (fun x => x.name = name) = some i
  | [], _, _, h => by cases h
  | n :: ns, tb, i, h => by
    rw [findIndexFrom] at h
    split at h
    · cases h
    rename_i tb' hopen
    split at h
    · rename_i j hj
      cases h
      have hfound := List.findIdx?_eq_some_iff_getElem.1 hj
      obtain ⟨hlt, hname, -⟩ := hfound
      exact ⟨n, tb.idx[i], tableOpen_ok hopen, List.getElem?_eq_getElem hlt, by simpa using hname, hj⟩
    · exact findIndexFrom_some h

theorem findIndexFrom_none : ∀ {ns : List Bytes}, findIndexFrom db name ns = .ok none → ∀ n ∈ ns, ∀ i x,
    HasIndex db n i x → x.name ≠ name
  | [], _, n, hn, _, _, _ => by cases hn
  | n :: ns, h, n', hn', i, x, hx => by
    rw [findIndexFrom] at h
    split at h
    · cases h
    rename_i tb hopen
    split at h
    · cases h
    rename_i hnone
    rcases List.mem_cons.1 hn' with rfl | hn'
    · obtain ⟨tb', htb', hi⟩ := hx
      rw [tableOpen_ok hopen] at htb'
      cases htb'
      rw [List.findIdx?_eq_none_iff] at hnone
      simpa using hnone x (List.mem_of_getElem? hi)
    · exact findIndexFrom_none h n' hn' i x hx

theorem findIndex_none (h : findIndex db name = .ok none) (n : Bytes) (i : Nat) (x : Index) (hx : HasIndex db n i x) :
    x.name ≠ name := by
  obtain ⟨tb, htb, hi⟩ := hx
  exact findIndexFrom_none h n (mem_names htb) i x ⟨tb, htb, hi⟩

theorem indexChecks_fresh {d : IndexDecl} (h : indexChecks tb d = .ok ()) : ∀ y ∈ tb.idx, y.name ≠ d.name := by
  unfold indexChecks at h
  split at h
  · cases h
  split_ifs at h with hnone hlong hany
  · split at h
    · cases h
    · split at h <;> cases h
  · intro y hy hname
    exact hany (List.any_eq_true.2 ⟨y, hy, by simpa using hname⟩)

theorem indexCreate_made {d : IndexDecl} (h : indexCreate db tb d = (.ok (), db')) :
    ∃ x, x.name = d.name ∧ (∀ y ∈ tb.idx, y.name ≠ d.name) ∧
      ∀ n, db'.table n = if n = tb.name then some (withIndex tb x) else db.table n := by
  unfold indexCreate at h
  split at h
  · cases h
  rename_i hchecks
  rcases hid : nextId db.trees with ⟨e | id, t₁⟩ <;> rw [hid] at h
  · cases h
  dsimp only at h
  split at h
  · split at h
    · cases h
    rcases hwrite : schemaWrite { db with trees := _ } (withIndex tb ⟨d.name, id, d.cols, d.unique⟩) with
      ⟨e | ⟨⟩, db₃⟩ <;> rw [hwrite] at h
    · cases h
    cases h
    exact ⟨⟨d.name, id, d.cols, d.unique⟩, rfl, indexChecks_fresh hchecks, (schemaWrite_ok hwrite).2⟩
  · cases h

theorem indexDrop_made (h : indexDrop db tb index = (.ok (), db')) : ∃ i x, tb.idx[i]? = some x ∧ x.name = index ∧
      ∀ n, db'.table n = if n = tb.name then some (withoutIndex tb i) else db.table n := by
  unfold indexDrop at h
  split at h
  · cases h
  rename_i i hi
  split at h
  · cases h
  rename_i x hx
  split at h
  · obtain ⟨hlt, hname, -⟩ := List.findIdx?_eq_some_iff_getElem.1 hi
    rw [List.getElem?_eq_getElem hlt] at hx
    cases hx
    exact ⟨i, tb.idx[i], List.getElem?_eq_getElem hlt, by simpa using hname, (schemaWrite_ok h).2⟩
  · cases h

theorem tableDrop_made (h : tableDrop db name = (.ok (), db')) :
    ∀ n, db'.table n = if n = name then none else db.table n := by
  unfold tableDrop at h
  split at h
  · cases h
  have hdel : ∀ t : Trees, ∀ n, Db.table { db with catalog := db.catalog.map (·.del name), trees := t } n =
      if n = name then none else db.table n := by
    intro t n
    unfold Db.table
    rcases db.catalog with _ | c
    · split_ifs <;> rfl
    · show (c.del name).get n = _
      rw [SortedMap.get_del]
      split_ifs <;> rfl
  split at h
  · dsimp only at h
    split_ifs at h
    · split at h
      · cases h
        exact hdel _
      · cases h
        exact hdel _
      · cases h
    · cases h
      exact hdel _
  · cases h

/-! ## Names apart -/

theorem HasIndex.unique (hx : HasIndex db n i x) (hy : HasIndex db n i y) : x = y := by
  obtain ⟨tb, htb, hi⟩ := hx
  obtain ⟨tb', htb', hi'⟩ := hy
  rw [htb] at htb'
  cases htb'
  rw [hi] at hi'
  exact Option.some.inj hi'

theorem hasIndex_same (hsame : ∀ n i x, HasIndex db' n i x → HasIndex db n i x) (h : NamesApart db) :
    NamesApart db' :=
  fun n i x n' i' x' hx hx' hname => h n i x n' i' x' (hsame n i x hx) (hsame n' i' x' hx') hname

theorem hasIndex_withIndex (htb : db.table tb.name = some tb)
    (htable : ∀ n, db'.table n = if n = tb.name then some (withIndex tb x) else db.table n) :
    HasIndex db' n i y ↔ HasIndex db n i y ∨ (n = tb.name ∧ i = tb.idx.length ∧ y = x) := by
  unfold HasIndex
  rw [htable]
  by_cases hn : n = tb.name
  · rw [if_pos hn, hn, htb]
    constructor
    · rintro ⟨tb', htb', hi⟩
      cases htb'
      rcases Nat.lt_trichotomy i tb.idx.length with hlt | heq | hgt
      · rw [withIndex, List.getElem?_append_left hlt] at hi
        exact .inl ⟨tb, rfl, hi⟩
      · rw [withIndex, List.getElem?_append_right heq.ge, heq, Nat.sub_self] at hi
        cases hi
        exact .inr ⟨rfl, heq, rfl⟩
      · have hlt := (List.getElem?_eq_some_iff.1 hi).1
        rw [withIndex, List.length_append, List.length_singleton] at hlt
        omega
    · rintro (⟨tb', htb', hi⟩ | ⟨-, hi, rfl⟩)
      · cases htb'
        refine ⟨_, rfl, ?_⟩
        rw [withIndex, List.getElem?_append_left (List.getElem?_eq_some_iff.1 hi).1, hi]
      · refine ⟨_, rfl, ?_⟩
        rw [withIndex, hi, List.getElem?_append_right le_rfl, Nat.sub_self]
        rfl
  · rw [if_neg hn]
    exact ⟨.inl, fun h => h.resolve_right (fun h => hn h.1)⟩

theorem NamesApart.withIndex (h : NamesApart db) (htb : db.table tb.name = some tb)
    (htable : ∀ n, db'.table n = if n = tb.name then some (withIndex tb x) else db.table n)
    (hfresh : ∀ n i y, HasIndex db n i y → y.name ≠ x.name) : NamesApart db' := by
  intro n i y n' i' y' hy hy' hname
  rcases (hasIndex_withIndex htb htable).1 hy with hy | ⟨hn, hi, rfl⟩ <;>
    rcases (hasIndex_withIndex htb htable).1 hy' with hy' | ⟨hn', hi', rfl⟩
  · exact h n i y n' i' y' hy hy' hname
  · exact absurd hname (hfresh n i y hy)
  · exact absurd hname.symm (hfresh n' i' y' hy')
  · exact ⟨hn.trans hn'.symm, hi.trans hi'.symm⟩

theorem Named.withIndex (h : Named db)
    (htable : ∀ n, db'.table n = if n = tb.name then some (withIndex tb x) else db.table n) : Named db' := by
  intro n tb' htb'
  rw [htable] at htb'
  split_ifs at htb' with hn
  · cases htb'
    exact hn.symm
  · exact h n tb' htb'

/-! ## CREATE TABLE -/

structure Uniqued (db db' : Db) (name : Bytes) (uniques : List (List Bytes)) : Prop where
  other : ∀ n, n ≠ name → db'.table n = db.table n
  kept : ∀ i x, HasIndex db name i x → HasIndex db' name i x
  made : ∀ cols ∈ uniques, ∃ i x, HasIndex db' name i x ∧ x.name = uniqueName name cols

theorem createIndexes_apart : ∀ {uniques : List (List Bytes)} {db : Db}, Named db → NamesApart db →
    (∀ cols ∈ uniques, ∀ n i x, n ≠ name → HasIndex db n i x → x.name ≠ uniqueName name cols) →
    createIndexes name db uniques = .ok db' → NamesApart db'
  | [], db, _, h, _, hc => by
    cases hc
    exact h
  | cols :: uniques, db, hn, h, hfresh, hc => by
    rw [createIndexes] at hc
    split at hc
    · cases hc
    rename_i tb hopen
    have htb := tableOpen_ok hopen
    have hname := hn _ _ htb
    split at hc
    · cases hc
    split at hc
    · cases hc
    rename_i db₁ hindex
    obtain ⟨x, hx, hown, htable⟩ := indexCreate_made hindex
    have htb' : db.table tb.name = some tb := by rw [hname, htb]
    refine createIndexes_apart (hn.withIndex htable) (h.withIndex htb' htable ?_) ?_ hc
    · intro n i y hy
      rw [hx]
      by_cases hne : n = name
      · obtain ⟨tb', htb', hi⟩ := hy
        rw [hne, htb] at htb'
        cases htb'
        exact hown y (List.mem_of_getElem? hi)
      · exact hfresh cols (List.mem_cons_self ..) n i y hne hy
    · intro cols' hcols' n i y hne hy
      rcases (hasIndex_withIndex htb' htable).1 hy with hy | ⟨hn', -, -⟩
      · exact hfresh cols' (List.mem_cons_of_mem _ hcols') n i y hne hy
      · exact absurd (hn'.trans hname) hne

theorem createIndexes_uniqued : ∀ {uniques : List (List Bytes)} {db : Db}, Named db →
    createIndexes name db uniques = .ok db' → Named db' ∧ Uniqued db db' name uniques
  | [], db, hn, hc => by
    cases hc
    exact ⟨hn, fun _ _ => rfl, fun _ _ hx => hx, fun _ hcols => by cases hcols⟩
  | cols :: uniques, db, hn, hc => by
    rw [createIndexes] at hc
    split at hc
    · cases hc
    rename_i tb hopen
    have htb := tableOpen_ok hopen
    have hname := hn _ _ htb
    split at hc
    · cases hc
    split at hc
    · cases hc
    rename_i db₁ hindex
    obtain ⟨x, hx, -, htable⟩ := indexCreate_made hindex
    have htb' : db.table tb.name = some tb := by rw [hname, htb]
    obtain ⟨hn', hu⟩ := createIndexes_uniqued (hn.withIndex htable) hc
    refine ⟨hn', fun n hne => ?_, fun i y hy => ?_, fun cols' hcols' => ?_⟩
    · rw [hu.other n hne, htable, if_neg (fun he : n = tb.name => hne (he.trans hname))]
    · exact hu.kept i y ((hasIndex_withIndex htb' htable).2 (.inl hy))
    · rcases List.mem_cons.1 hcols' with rfl | hcols'
      · exact ⟨_, x, hu.kept _ x ((hasIndex_withIndex htb' htable).2 (.inr ⟨hname.symm, rfl, rfl⟩)), hx⟩
      · exact hu.made cols' hcols'

theorem ckCreateAll_db {table : Bytes} : ∀ {ds : List SqlCheck} {s : Schema}, ckCreateAll r table s ds = .ok s' →
    s'.db = s.db
  | [], s, h => by
    cases h
    rfl
  | d :: ds, s, h => by
    rw [ckCreateAll] at h
    split at h
    · cases h
    rename_i s₁ hone
    obtain ⟨tb, t, hmade⟩ := ckCreate_ok hone
    rw [ckCreateAll_db h, hmade.left]

/-- A CREATE TABLE that succeeds makes a table and its UNIQUEs' indexes. -/
theorem createTable_apart {cols : List ColDef} {key : List Nat} {uniques : List (List Bytes)} {checks : List SqlCheck}
    (hn : Named s.db) (h : NamesApart s.db) (hc : s.createTable r name cols key uniques checks = .ok s') :
    Named s'.db ∧
      (NamesApart s'.db ↔ ∀ cols ∈ uniques, ∀ n i x, HasIndex s.db n i x → x.name ≠ uniqueName name cols) := by
  unfold Schema.createTable at hc
  split at hc
  · cases hc
  rename_i db₁ hcreate
  split at hc
  · cases hc
  split at hc
  · cases hc
  split at hc
  · cases hc
  rename_i db₂ hindexes
  have hdb : s'.db = db₂ := ckCreateAll_db hc
  have hread : ∀ c ∈ cols.map ColDef.col, Key.Readable ⟨false, false⟩ c.missing := by
    intro c hmem
    obtain ⟨def', -, rfl⟩ := List.mem_map.1 hmem
    exact def'.evaluated
  obtain ⟨id, hmk⟩ := tableCreate_ok hread hcreate
  have hname : (newTable ⟨name, cols.map ColDef.col, key⟩ id).name = name := rfl
  have hfree : s.db.table name = none := hmk.fresh
  have hn₁ : Named db₁ := by
    intro n tb htb
    rw [hmk.table] at htb
    split_ifs at htb with he
    · cases htb
      exact he.symm
    · exact hn n tb htb
  have hold : ∀ n i x, HasIndex db₁ n i x ↔ HasIndex s.db n i x := by
    intro n i x
    unfold HasIndex
    rw [hmk.table]
    split_ifs with he
    · rw [he, hname, hfree]
      constructor
      · rintro ⟨tb, htb, hi⟩
        cases htb
        cases hi
      · rintro ⟨tb, htb, -⟩
        cases htb
    · rfl
  have h₁ : NamesApart db₁ := hasIndex_same (fun n i x hx => (hold n i x).1 hx) h
  obtain ⟨hn₂, hu⟩ := createIndexes_uniqued hn₁ hindexes
  rw [hdb]
  refine ⟨hn₂, fun hapart cols hcols n i x hx hsame => ?_, fun hfresh => ?_⟩
  · have hne : n ≠ name := by
      rintro rfl
      obtain ⟨tb, htb, -⟩ := hx
      rw [hfree] at htb
      cases htb
    obtain ⟨j, y, hy, hyname⟩ := hu.made cols hcols
    obtain ⟨tb, htb, hi⟩ := (hold n i x).2 hx
    exact hne (hapart n i x name j y ⟨tb, by rw [hu.other n hne, htb], hi⟩ hy (hsame.trans hyname.symm)).1
  · exact createIndexes_apart hn₁ h₁ (fun cols hcols n i x _ hx => hfresh cols hcols n i x ((hold n i x).1 hx))
      hindexes

/-! ## Every statement -/

theorem createIndex_apart {ifNotExists unique : Bool} {cols : List (Bytes × Bool)} (hn : Named s.db)
    (h : NamesApart s.db) (hc : s.createIndex ifNotExists index table cols unique = .ok s') :
    Named s'.db ∧ NamesApart s'.db := by
  unfold Schema.createIndex at hc
  split at hc
  · cases hc
  · split_ifs at hc
    cases hc
    exact ⟨hn, h⟩
  · rename_i hnone
    split at hc
    · split_ifs at hc
    rename_i tb hopen
    have htb := tableOpen_ok hopen
    split at hc
    · cases hc
    split at hc
    · cases hc
    rename_i db' hindex
    cases hc
    obtain ⟨x, hx, -, htable⟩ := indexCreate_made hindex
    refine ⟨hn.withIndex htable, h.withIndex (by rw [hn _ _ htb, htb]) htable (fun n i y hy => ?_)⟩
    rw [hx]
    exact findIndex_none hnone n i y hy

theorem rename_apart {newName : Bytes} (hn : Named s.db) (h : NamesApart s.db) (hc : s.rename table newName = .ok s') :
    Named s'.db ∧ NamesApart s'.db := by
  unfold Schema.rename at hc
  split at hc
  · cases hc
  rename_i db' hrename
  cases hc
  obtain ⟨tb, htb, hfree, -, htable⟩ := tableRename_ok hrename
  refine ⟨fun n u hu => ?_, fun n i x n' i' x' hx hx' hname => ?_⟩
  · rw [htable] at hu
    split_ifs at hu with he
    · cases hu
      exact he.symm
    · exact hn n u hu
  · have hback : ∀ n i x, HasIndex db' n i x → (n = newName ∧ HasIndex s.db table i x) ∨
        (n ≠ newName ∧ n ≠ table ∧ HasIndex s.db n i x) := by
      rintro n i x ⟨u, hu, hi⟩
      rw [htable] at hu
      split_ifs at hu with h1 h2
      · cases hu
        exact .inl ⟨h1, tb, htb, hi⟩
      · exact .inr ⟨h1, h2, u, hu, hi⟩
    rcases hback n i x hx with ⟨hn1, hx⟩ | ⟨hn1, hn2, hx⟩ <;>
      rcases hback n' i' x' hx' with ⟨hn3, hx'⟩ | ⟨hn3, hn4, hx'⟩
    · exact ⟨hn1.trans hn3.symm, (h _ i x _ i' x' hx hx' hname).2⟩
    · exact absurd (h _ i x _ i' x' hx hx' hname).1.symm hn4
    · exact absurd (h _ i x _ i' x' hx hx' hname).1 hn2
    · exact h _ i x _ i' x' hx hx' hname

theorem dropTable_apart (hn : Named s.db) (h : NamesApart s.db) (hc : s.dropTable ifExists table = .ok s') :
    Named s'.db ∧ NamesApart s'.db := by
  unfold Schema.dropTable at hc
  split at hc
  · split_ifs at hc
    cases hc
    exact ⟨hn, h⟩
  · rename_i db' hdrop
    cases hc
    have htable := tableDrop_made hdrop
    refine ⟨fun n u hu => ?_, hasIndex_same (fun n i x hx => ?_) h⟩
    · rw [htable] at hu
      split_ifs at hu
      exact hn n u hu
    · obtain ⟨u, hu, hi⟩ := hx
      rw [htable] at hu
      split_ifs at hu
      exact ⟨u, hu, hi⟩

theorem hasIndex_withoutIndex (htb : db.table tb.name = some tb)
    (htable : ∀ n, db'.table n = if n = tb.name then some (withoutIndex tb i) else db.table n) {j : Nat} :
    HasIndex db' n j y ↔ HasIndex db n (if n = tb.name ∧ i ≤ j then j + 1 else j) y := by
  unfold HasIndex
  rw [htable]
  by_cases hn : n = tb.name
  · rw [if_pos hn, hn, htb]
    by_cases hj : i ≤ j
    · rw [if_pos ⟨rfl, hj⟩]
      constructor
      · rintro ⟨u, hu, hi⟩
        cases hu
        rw [withoutIndex, List.getElem?_eraseIdx_of_ge hj] at hi
        exact ⟨tb, rfl, hi⟩
      · rintro ⟨u, hu, hi⟩
        cases hu
        exact ⟨_, rfl, by rw [withoutIndex, List.getElem?_eraseIdx_of_ge hj, hi]⟩
    · rw [if_neg (fun h => hj h.2)]
      constructor
      · rintro ⟨u, hu, hi⟩
        cases hu
        rw [withoutIndex, List.getElem?_eraseIdx_of_lt (not_le.1 hj)] at hi
        exact ⟨tb, rfl, hi⟩
      · rintro ⟨u, hu, hi⟩
        cases hu
        exact ⟨_, rfl, by rw [withoutIndex, List.getElem?_eraseIdx_of_lt (not_le.1 hj), hi]⟩
  · rw [if_neg hn, if_neg (fun h => hn h.1)]

theorem indexDrop_apart (hn : Named db) (h : NamesApart db) (htb : db.table tb.name = some tb)
    (htable : ∀ n, db'.table n = if n = tb.name then some (withoutIndex tb i) else db.table n) :
    Named db' ∧ NamesApart db' := by
  refine ⟨fun n u hu => ?_, fun n j y n' j' y' hy hy' hname => ?_⟩
  · rw [htable] at hu
    split_ifs at hu with he
    · cases hu
      exact he.symm
    · exact hn n u hu
  · obtain ⟨rfl, hj⟩ := h _ _ _ _ _ _ ((hasIndex_withoutIndex htb htable).1 hy)
      ((hasIndex_withoutIndex htb htable).1 hy') hname
    refine ⟨rfl, ?_⟩
    split_ifs at hj with h1 h2 h2
    · omega
    · have := not_and.1 h2 h1.1
      omega
    · have := not_and.1 h1 h2.1
      omega
    · exact hj

theorem indexDrop_exact (h : NamesApart db) (htb : db.table tb.name = some tb) (hi : tb.idx[i]? = some x)
    (htable : ∀ n, db'.table n = if n = tb.name then some (withoutIndex tb i) else db.table n) (n : Bytes) (y : Index) :
    (∃ j, HasIndex db' n j y) ↔ (∃ j, HasIndex db n j y) ∧ y.name ≠ x.name := by
  have hx : HasIndex db tb.name i x := ⟨tb, htb, hi⟩
  constructor
  · rintro ⟨j, hj⟩
    have hj := (hasIndex_withoutIndex htb htable).1 hj
    refine ⟨⟨_, hj⟩, fun hname => ?_⟩
    obtain ⟨hn, hji⟩ := h _ _ _ _ _ _ hj hx hname
    split_ifs at hji with hle
    · omega
    · exact hle ⟨hn, hji.ge⟩
  · rintro ⟨⟨j, hj⟩, hname⟩
    have hne : ¬ (n = tb.name ∧ j = i) := by
      rintro ⟨rfl, rfl⟩
      exact hname (by rw [hj.unique hx])
    by_cases hlt : n = tb.name ∧ i < j
    · refine ⟨j - 1, (hasIndex_withoutIndex htb htable).2 ?_⟩
      rw [if_pos ⟨hlt.1, by omega⟩, Nat.sub_add_cancel (by omega)]
      exact hj
    · refine ⟨j, (hasIndex_withoutIndex htb htable).2 ?_⟩
      rw [if_neg (fun hle => ?_)]
      · exact hj
      · have h1 := not_and.1 hlt hle.1
        have h2 := not_and.1 hne hle.1
        omega

theorem dropIndex_made (hn : Named s.db) (hc : s.dropIndex ifExists index = .ok s') :
    s' = s ∧ ifExists = true ∨ ∃ tb i x, s.db.table tb.name = some tb ∧ tb.idx[i]? = some x ∧ x.name = index ∧
      ∀ n, s'.db.table n = if n = tb.name then some (withoutIndex tb i) else s.db.table n := by
  unfold Schema.dropIndex at hc
  split at hc
  · cases hc
  · split_ifs at hc with hif
    cases hc
    exact .inl ⟨rfl, hif⟩
  · rename_i tb i hfind
    split at hc
    · cases hc
    rename_i db' hdrop
    cases hc
    obtain ⟨n, -, htb, -, -, -⟩ := findIndexFrom_some hfind
    obtain ⟨j, x, hx, hname, htable⟩ := indexDrop_made hdrop
    exact .inr ⟨tb, j, x, by rw [hn _ _ htb, htb], hx, hname, htable⟩

theorem dropIndex_apart (hn : Named s.db) (h : NamesApart s.db) (hc : s.dropIndex ifExists index = .ok s') :
    Named s'.db ∧ NamesApart s'.db := by
  rcases dropIndex_made hn hc with ⟨rfl, -⟩ | ⟨tb, i, x, htb, -, -, htable⟩
  · exact ⟨hn, h⟩
  · exact indexDrop_apart hn h htb htable

/-- **A statement keeps the names apart** exactly where the names it makes are fresh. -/
theorem statement_apart (hn : Named s.db) (h : NamesApart s.db) {stmt : IndexStatement} (hc : stmt.run r s = .ok s') :
    Named s'.db ∧ (NamesApart s'.db ↔ stmt.Fresh s) := by
  have hmade : ∀ {P : Prop}, P → Named s'.db ∧ NamesApart s'.db → Named s'.db ∧ (NamesApart s'.db ↔ P) :=
    fun hp h' => ⟨h'.1, fun _ => hp, fun _ => h'.2⟩
  cases stmt with
  | createTable ifNotExists name cols key uniques checks =>
    unfold IndexStatement.run at hc
    dsimp only at hc
    split_ifs at hc with hskip
    · cases hc
      exact hmade (.inl hskip) ⟨hn, h⟩
    · obtain ⟨hn', hiff⟩ := createTable_apart hn h hc
      exact ⟨hn', hiff.trans ⟨.inr, fun hfresh => hfresh.resolve_left hskip⟩⟩
  | createIndex ifNotExists index table cols unique => exact hmade trivial (createIndex_apart hn h hc)
  | rename table newName => exact hmade trivial (rename_apart hn h hc)
  | dropIndex ifExists index => exact hmade trivial (dropIndex_apart hn h hc)
  | dropTable ifExists table => exact hmade trivial (dropTable_apart hn h hc)

theorem indexRuns_apart (h : IndexRuns r (fun s stmt => stmt.Fresh s) s) : Named s.db ∧ NamesApart s.db := by
  induction h with
  | start =>
    refine ⟨fun n tb htb => (by cases htb), fun n i x n' i' x' hx => ?_⟩
    obtain ⟨tb, htb, -⟩ := hx
    cases htb
  | step stmt _ hfresh hc ih =>
    obtain ⟨hn', hiff⟩ := statement_apart ih.1 ih.2 hc
    exact ⟨hn', hiff.2 hfresh⟩

/-- A name is one index's, and dropping it drops that one. -/
structure OneIndex (r : RowHost) (s : Schema) : Prop where
  apart : NamesApart s.db
  dropped : ∀ index s', (IndexStatement.dropIndex false index).run r s = .ok s' →
    (∃ n i x, HasIndex s.db n i x ∧ x.name = index) ∧
      ∀ n y, (∃ j, HasIndex s'.db n j y) ↔ (∃ j, HasIndex s.db n j y) ∧ y.name ≠ index

/-- **An index name means one index** in every state that successful statements reach, where each CREATE TABLE makes
names for its UNIQUEs that no index has; and the first that does not gives two indexes one name. -/
theorem index_name_one (r : RowHost) (s : Schema) (h : IndexRuns r (fun s stmt => stmt.Fresh s) s) :
    OneIndex r s ∧
      ∀ (stmt : IndexStatement) (s' : Schema), stmt.run r s = .ok s' → (NamesApart s'.db ↔ stmt.Fresh s) := by
  obtain ⟨hn, hapart⟩ := indexRuns_apart h
  refine ⟨⟨hapart, fun index s' hc => ?_⟩, fun stmt s' hc => (statement_apart hn hapart hc).2⟩
  rcases dropIndex_made hn hc with ⟨-, hif⟩ | ⟨tb, i, x, htb, hi, hname, htable⟩
  · cases hif
  · refine ⟨⟨tb.name, i, x, ⟨tb, htb, hi⟩, hname⟩, fun n y => ?_⟩
    rw [← hname]
    exact indexDrop_exact hapart htb hi htable n y

end

def createUnique (name : Bytes) : IndexStatement := .createTable false name [numberColumn (text "n")] [] [[text "n"]] []

/-- What a statement leaves. -/
def IndexStatement.after (r : RowHost) (s : Schema) (stmt : IndexStatement) : Schema :=
  match stmt.run r s with
  | .ok s' => s'
  | .error _ => s

theorem IndexStatement.run_after {r : RowHost} {s : Schema} {stmt : IndexStatement} (h : (stmt.run r s).isOk = true) :
    stmt.run r s = .ok (stmt.after r s) := by
  unfold IndexStatement.after
  rcases hrun : stmt.run r s with e | s' <;> rw [hrun] at h
  · cases h

def uniqueMade : Schema := (createUnique (text "t")).after stockHost noTables

theorem uniqueMade_ok : (createUnique (text "t")).run stockHost noTables = .ok uniqueMade :=
  IndexStatement.run_after (by decide +kernel)

def IndexStatement.freshNames (s : Schema) : IndexStatement → Bool
  | .createTable ifNotExists name _ _ uniques _ =>
    s.skips ifNotExists name || s.db.names.all (fun n => (s.db.table n).all (fun tb => tb.idx.all (fun x =>
      uniques.all (fun cols => decide (x.name ≠ uniqueName name cols)))))
  | _ => true

theorem IndexStatement.fresh_of_names {s : Schema} {stmt : IndexStatement} (h : stmt.freshNames s = true) :
    stmt.Fresh s := by
  cases stmt with
  | createTable ifNotExists name cols key uniques checks =>
    rcases (Bool.or_eq_true _ _).mp h with hskip | hall
    · exact .inl hskip
    · refine .inr (fun cols hcols n i x hx => ?_)
      obtain ⟨tb, htb, hi⟩ := hx
      have htable := List.all_eq_true.1 hall n (mem_names htb)
      rw [htb, Option.all_some] at htable
      have hx := List.all_eq_true.1 (List.all_eq_true.1 htable x (List.mem_of_getElem? hi)) cols hcols
      exact of_decide_eq_true hx
  | createIndex _ _ _ _ _ => trivial
  | rename _ _ => trivial
  | dropIndex _ _ => trivial
  | dropTable _ _ => trivial

def freshRun (r : RowHost) : Schema → List IndexStatement → Option Schema
  | s, [] => some s
  | s, stmt :: stmts => if stmt.freshNames s && (stmt.run r s).isOk then freshRun r (stmt.after r s) stmts else none

theorem IndexRuns.follow {r : RowHost} : ∀ {stmts : List IndexStatement} {s s' : Schema},
    IndexRuns r (fun s stmt => stmt.Fresh s) s → freshRun r s stmts = some s' →
      IndexRuns r (fun s stmt => stmt.Fresh s) s'
  | [], _, _, h, hrun => by
    cases hrun
    exact h
  | stmt :: stmts, s, s', h, hrun => by
    rw [freshRun] at hrun
    split_ifs at hrun with hok
    rw [Bool.and_eq_true] at hok
    exact (IndexRuns.step stmt h (IndexStatement.fresh_of_names hok.1) (IndexStatement.run_after hok.2)).follow hrun

def apartStatements : List IndexStatement :=
  [createUnique (text "t"), createUnique (text "u"),
    .createIndex false (text "by_n") (text "t") [(text "n", false)] false, .rename (text "t") (text "w")]

theorem index_name_one_made : ∃ s, OneIndex stockHost s ∧
    (s.db.names.map (fun n => ((s.db.table n).map (fun tb => tb.idx.map Index.name)).getD [])) =
      [[text "u_n_key"], [text "t_n_key", text "by_n"]] ∧
    ∀ (stmt : IndexStatement) (s' : Schema), stmt.run stockHost s = .ok s' → (NamesApart s'.db ↔ stmt.Fresh s) := by
  have hrun : (freshRun stockHost noTables apartStatements).map (fun s =>
      s.db.names.map (fun n => ((s.db.table n).map (fun tb => tb.idx.map Index.name)).getD [])) =
      some [[text "u_n_key"], [text "t_n_key", text "by_n"]] := by
    decide +kernel
  obtain ⟨s, hs, hnames⟩ := Option.map_eq_some_iff.1 hrun
  obtain ⟨hone, hnext⟩ := index_name_one stockHost s (IndexRuns.start.follow hs)
  exact ⟨s, hone, hnames, hnext⟩

def uniqueRenamed : Schema := IndexStatement.after stockHost uniqueMade (.rename (text "t") (text "u"))

def uniqueAgain : Schema := (createUnique (text "t")).after stockHost uniqueRenamed

/-- A table renamed leaves its index's name to the next table of the old name. -/
theorem index_name_twice : ¬ ∀ (r : RowHost) (s : Schema), IndexRuns r (fun _ _ => True) s → OneIndex r s := by
  intro hall
  have hmade : IndexRuns stockHost (fun _ _ => True) uniqueMade := .step _ .start trivial uniqueMade_ok
  have hrenamed : IndexRuns stockHost (fun _ _ => True) uniqueRenamed :=
    .step _ hmade trivial (IndexStatement.run_after (by decide +kernel))
  have hagain : IndexRuns stockHost (fun _ _ => True) uniqueAgain :=
    .step _ hrenamed trivial (IndexStatement.run_after (by decide +kernel))
  have hx : ∀ n ∈ [text "t", text "u"], ∃ x, HasIndex uniqueAgain.db n 0 x ∧ x.name = text "t_n_key" := by
    intro n hn
    have hfound : ∀ n ∈ [text "t", text "u"],
        ((uniqueAgain.db.table n).bind (fun tb => tb.idx[0]?)).map Index.name = some (text "t_n_key") := by
          decide +kernel
    obtain ⟨x, hx, hname⟩ := Option.map_eq_some_iff.1 (hfound n hn)
    exact ⟨x, Option.bind_eq_some_iff.1 hx, hname⟩
  obtain ⟨x, ht, hname⟩ := hx (text "t") (by decide)
  obtain ⟨y, hu, hname'⟩ := hx (text "u") (by decide)
  have hsame := ((hall _ _ hagain).apart _ _ _ _ _ _ ht hu (hname.trans hname'.symm)).1
  exact absurd hsame (by decide)

end Gsql
end Gbasic
