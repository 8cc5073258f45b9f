import Gbasic.SqlSchemaHeld
/-!
# SqlCheckRun — CHECKs hold in every state reached

What a check means is settled where it is declared: the columns its names bind to then.  Beside the schema a run keeps
what has been declared and not dropped, each with that meaning and the name its table has now.  A check holds while the
text that is kept binds to the same columns, for then no row is written that it is false of.  Two statements leave that
open (`Statement.Spares`): `ADD COLUMN` passes over the CHECK declared beside its column, and `RENAME TO` changes the
table's name where the check is kept but not in its text.
-/
namespace Gbasic
namespace Gsql

open Engine (Trees Tree Bytes)
open Key (SER_BOOL)

variable {t : RowTerm} {cols : List Column} {table : Bytes} {fks : List FkRec} {sc : SqlCheck}

/-- A CHECK declared, on the table under its present name: its term is what its text meant then. -/
structure Declared where
  name : Bytes
  table : Bytes
  term : RowTerm

def Fails (r : RowHost) (t : RowTerm) (v : Vals) : Prop := ∃ x, t.eval r v = .ok x ∧ truth x = .no

def Enforced (r : RowHost) (s : Schema) (d : Declared) : Prop :=
  ∃ c tb, s.constraints.get d.name = some (.check c) ∧ c.bound = true ∧ c.table = d.table ∧
    s.db.table d.table = some tb ∧ r.plan tb c.text = .ok d.term

def Obeyed (r : RowHost) (db : Db) (d : Declared) : Prop :=
  ∀ tb m, db.table d.table = some tb → db.trees tb.rowsTree = some m → ∀ key row v, m.get key = some row →
    rowDecode tb row = .ok v → ¬ Fails r d.term v

def ChecksHold (r : RowHost) (s : Schema) (ds : List Declared) : Prop := ∀ d ∈ ds, Enforced r s d ∧ Obeyed r s.db d

def declare (r : RowHost) (db : Db) (table : Bytes) (d : SqlCheck) : Option Declared :=
  match ckPlan r db table d.text with
  | .ok (_, t) => some ⟨ckName table d, table, t⟩
  | .error _ => none

def Declared.renamed (table newName : Bytes) (d : Declared) : Declared :=
  if d.table = table then { d with table := newName } else d

/-- What is declared after a statement that has led from `s` to `s'`. -/
def Statement.declares (r : RowHost) (s s' : Schema) (ds : List Declared) : Statement → List Declared
  | .createTable ifNotExists name _ _ _ checks =>
    if s.skips ifNotExists name then ds else ds ++ checks.filterMap (declare r s'.db name)
  | .addColumn table _ check => ds ++ check.toList.filterMap (declare r s'.db table)
  | .addCheck table d => ds ++ [d].filterMap (declare r s'.db table)
  | .dropConstraint _ name => ds.filter (fun d => d.name ≠ name)
  | .rename table newName => ds.map (Declared.renamed table newName)
  | .rows _ => ds

/-- Statements that succeed and meet a condition, one after another, with what is declared.  What they make of the
foreign keys is left open. -/
inductive CheckRuns (r : RowHost) (h : Host) (P : Schema → Statement → Prop) : Schema → List Declared → Prop where
  | start : CheckRuns r h P ⟨Db.none, .empty⟩ []
  | step {s s' : Schema} {ds : List Declared} (hrun : CheckRuns r h P s ds) (stmt : Statement)
      (hok : stmt.run r h s = .ok s') (hmeets : P s stmt) : CheckRuns r h P s' (stmt.declares r s s' ds)
  | foreign {s : Schema} {ds : List Declared} (hrun : CheckRuns r h P s ds) (cs : SortedMap Bytes Constraint)
      (hchecks : ∀ n c, cs.get n = some (.check c) ↔ s.constraints.get n = some (.check c)) :
      CheckRuns r h P { s with constraints := cs } ds

/-- An `ADD COLUMN` declares no CHECK, and of the table a `RENAME TO` renames no check has a dotted name that begins
with the old name or the new one. -/
def Statement.Spares (r : RowHost) (s : Schema) : Statement → Prop
  | .addColumn _ _ check => check = none
  | .rename table newName => ∀ n c e, s.constraints.get n = some (.check c) → c.table = table → r.parse c.text = .ok e →
      e.qualified table = false ∧ e.qualified newName = false
  | _ => True

section
variable {r : RowHost} {h : Host} {s s' : Schema} {ds : List Declared} {d : Declared} {db db' : Db} {tb tb' : Table}
  {name : Bytes} {m m' : Tree} {v : Vals}

/-! ## A row that passes -/

theorem not_fails_of_ckRow {c : CkRec} (hok : ckRow r c t v = .ok ()) : ¬ Fails r t v := by
  rintro ⟨x, hx, hno⟩
  unfold ckRow at hok
  rw [hx] at hok
  dsimp only at hok
  rw [hno] at hok
  cases hok

theorem fails_stored (t : RowTerm) : Fails r t (v.map stored) ↔ Fails r t v := by
  have heval : t.eval r (v.map stored) = t.eval r v := by
    refine RowTerm.eval_congr (fun i _ => ?_)
    rw [getD_stored, stored_stored]
  rw [Fails, Fails, heval]

theorem Enforced.loaded (h : Host) (he : Enforced r s d) (htb : s.db.table d.table = some tb)
    (hname : tb.name = d.table) :
    ∃ c, ckRow r c d.term ∈ (r.over h s.constraints).checks tb := by
  obtain ⟨c, tb', hget, hbound, htable, htb', hplan⟩ := he
  rw [htb] at htb'
  cases htb'
  refine ⟨c, List.mem_filterMap.2 ⟨(d.name, .check c), SortedMap.get_eq_some_iff.1 hget, ?_⟩⟩
  unfold ckPlanned
  dsimp only
  rw [if_pos (by simp [hbound, htable, hname]), hplan]

/-- **A row that the checks let through makes none of them false.** -/
theorem Enforced.passes (he : Enforced r s d) (htb : s.db.table d.table = some tb) (hname : tb.name = d.table)
    (hok : ckCheckRow (r.over h s.constraints) tb v = .ok ()) : ¬ Fails r d.term v := by
  obtain ⟨c, hc⟩ := he.loaded h htb hname
  unfold ckCheckRow at hok
  rw [if_neg (by simpa using List.ne_nil_of_mem hc)] at hok
  split at hok
  · cases hok
  exact not_fails_of_ckRow (checkAll_ok hok _ hc)

/-! ## Rows written -/

theorem ChecksHold.replace (hch : ChecksHold r s ds) (hT : TablesHold s.db) (htb : s.db.table name = some tb)
    (hcat : db'.catalog = s.db.catalog) (hm : s.db.trees tb.rowsTree = some m) (hm' : db'.trees tb.rowsTree = some m')
    (hothers : OtherRows tb s.db.trees db'.trees)
    (hnew : ∀ key row v, m'.get key = some row → rowDecode tb row = .ok v → m.get key = some row ∨
      ∀ d ∈ ds, d.table = name → ¬ Fails r d.term v) : ChecksHold r { s with db := db' } ds := by
  intro d hd
  obtain ⟨he, ho⟩ := hch d hd
  constructor
  · obtain ⟨c, u, hget, hbound, htable, hu, hplan⟩ := he
    exact ⟨c, u, hget, hbound, htable, (table_congr hcat d.table).trans hu, hplan⟩
  · intro u mu hu hmu key row v hrow hdec
    rw [table_congr hcat] at hu
    by_cases hsame : u.rowsTree = tb.rowsTree
    · have hut := hT.same htb hu hsame
      subst hut
      rw [hm'] at hmu
      cases hmu
      rcases hnew key row v hrow hdec with hold | hpass
      · exact ho _ m hu hm key row v hold hdec
      · exact hpass d hd (hT.apart _ _ _ _ hu htb rfl)
    · rw [hothers u hsame] at hmu
      exact ho u mu hu hmu key row v hrow hdec

theorem givenRow_checks {vals : List (Option Bytes)} (hch : ChecksHold r s ds) (hT : TablesHold s.db)
    (htb : s.db.table name = some tb) (hg : GivenRow (r.over h s.constraints) fks tb vals s.db db') :
    TablesHold db' ∧ ChecksHold r { s with db := db' } ds := by
  obtain ⟨m, k, filled, -, hchecks, hcols, hins, hcat⟩ := hg
  have hfit := hT.fits _ _ htb
  obtain ⟨m₀, hm₀, hheld⟩ := hT.rows _ _ htb
  rw [hins.rows] at hm₀
  cases hm₀
  have hnewRow := rowHeld_encode hfit hins.whole hins.key (hcols hfit)
  refine ⟨hT.replace htb hcat hins.now (hheld.put hnewRow) hins.others,
    hch.replace hT htb hcat hins.rows hins.now hins.others (fun key row v hrow hdec => ?_)⟩
  rw [SortedMap.get_put] at hrow
  split_ifs at hrow
  swap
  · exact .inl hrow
  cases hrow
  rw [hnewRow.decoded] at hdec
  cases hdec
  refine .inr (fun d hd hdt => ?_)
  rw [fails_stored]
  subst hdt
  have hname := hT.named _ _ htb
  obtain ⟨c, hc⟩ := (hch d hd).1.loaded h htb hname
  unfold rowChecks at hchecks
  rw [if_neg (by simp [List.ne_nil_of_mem hc])] at hchecks
  split at hchecks
  · cases hchecks
  rename_i hpass
  exact (hch d hd).1.passes htb hname hpass

theorem givenRows_checks {rows : List (Db → Except Error (List (Option Bytes)))}
    (hg : GivenRows (r.over h s.constraints) fks tb rows db db') :
    ChecksHold r { s with db := db } ds → TablesHold db → db.table name = some tb →
    TablesHold db' ∧ ChecksHold r { s with db := db' } ds := by
  induction hg with
  | nil => exact fun hch hT _ => ⟨hT, hch⟩
  | @cons row rows vals db db₁ db' _ hgiven _ ih =>
    intro hch hT htb
    have hcat : db₁.catalog = db.catalog := by
      obtain ⟨-, -, -, -, -, -, -, hcat⟩ := hgiven
      exact hcat
    obtain ⟨hT₁, hch₁⟩ := givenRow_checks hch hT htb hgiven
    exact ih hch₁ hT₁ ((table_congr hcat name).trans htb)

theorem changed_checks {cg : Changing} {cs : List RowChange} (hch : ChecksHold r s ds) (hT : TablesHold s.db)
    (htb : s.db.table name = some tb) (hm : s.db.trees tb.rowsTree = some m)
    (hc : Changed (r.over h s.constraints) fks tb cg s.db db' m cs m') :
    TablesHold db' ∧ ChecksHold r { s with db := db' } ds := by
  have hfit := hT.fits _ _ htb
  obtain ⟨m₀, hm₀, hheld⟩ := hT.rows _ _ htb
  rw [hm] at hm₀
  cases hm₀
  refine ⟨hT.replace htb hc.catalog hc.now (hc.held hfit hheld) hc.others,
    hch.replace hT htb hc.catalog hm hc.now hc.others (fun key row v hrow hdec => ?_)⟩
  rcases hc.rows hfit hheld hrow with hold | ⟨c, hmem, w, hu, hw, hnew⟩
  · exact .inl hold
  refine .inr (fun d hd hdt => ?_)
  rw [hnew.decoded] at hdec
  cases hdec
  rw [fails_stored]
  subst hdt
  have hname := hT.named _ _ htb
  obtain ⟨ck, hck⟩ := (hch d hd).1.loaded h htb hname
  -- the UPDATE's own check of the row is of the values it becomes
  have hall := hc.checked
  unfold fkCheckChanges at hall
  rw [if_pos (by simp [hu, List.ne_nil_of_mem hck])] at hall
  have hone := checkAll_ok hall c hmem
  unfold fkCheckChange at hone
  split at hone
  · cases hone
  rename_i row' hget
  split at hone
  · cases hone
  rename_i old hold
  obtain ⟨-, m₁, hm₁, hg⟩ := rowGet_ok hget
  rw [hm] at hm₁
  cases hm₁
  rw [Changing.becomes, hg] at hw
  dsimp only at hw
  rw [hold] at hw
  cases hw
  rw [if_neg (by simp [hu])] at hone
  split at hone
  · cases hone
  rename_i hpass
  exact (hch d hd).1.passes htb hname hpass

theorem rows_checks {stmt : Stmt} {n : Nat} (hch : ChecksHold r s ds) (hT : TablesHold s.db)
    (hr : (stmt.run (r.over h s.constraints) fks s.db).answer = .ok n) :
    TablesHold (stmt.run (r.over h s.constraints) fks s.db).db ∧
      ChecksHold r { s with db := (stmt.run (r.over h s.constraints) fks s.db).db } ds := by
  cases stmt with
  | insert name targets source random =>
    obtain ⟨tb, hopen, -, hrun⟩ := Stmt.insert_steps hr
    rw [hrun] at hr ⊢
    obtain ⟨rows, -, -, hgiven⟩ := runInsert_ok hr
    exact givenRows_checks hgiven hch hT (tableOpen_ok hopen)
  | change name cg =>
    obtain ⟨tb, hopen, hrun⟩ := Stmt.change_steps hr
    rw [hrun] at hr ⊢
    have htb := tableOpen_ok hopen
    obtain ⟨m, hm, hheld⟩ := hT.rows _ _ htb
    obtain ⟨cs, m', -, hchanged⟩ := runUpdateDelete_ok hm hr
    exact changed_checks hch hT htb hm hchanged

/-! ## Records restated, and tables made -/

theorem plan_reads {text : Bytes} (hp : r.plan tb text = .ok t) {i : Nat} (hi : t.reads i = true) : i < tb.ncols := by
  unfold RowHost.plan at hp
  split at hp
  · cases hp
  exact bind_reads hp hi

theorem plan_longer {text : Bytes} (hname : tb'.name = tb.name) (hcols : tb'.cols = tb.cols ++ cols)
    (hp : r.plan tb text = .ok t) : r.plan tb' text = .ok t := by
  unfold RowHost.plan at hp ⊢
  split at hp
  · cases hp
  exact bind_longer hname hcols hp

theorem Restates.other {n : Bytes} {u : Table} (hr : Restates db db' name tb tb' cols) (hu : db.table n = some u)
    (hn : n ≠ name) : n ≠ tb'.name ∧ db'.table n = some u := by
  have hne : n ≠ tb'.name := by
    rintro rfl
    rcases hr.free with he | he
    · exact hn he
    · rw [he] at hu
      cases hu
  exact ⟨hne, by rw [hr.table, if_neg hne, if_neg hn, hu]⟩

theorem Enforced.other (he : Enforced r s d) (ho : Obeyed r s.db d) (hr : Restates s.db db' name tb tb' cols)
    (hd : d.table ≠ name) : Enforced r { s with db := db' } d ∧ Obeyed r db' d := by
  obtain ⟨c, u, hget, hbound, htable, hu, hplan⟩ := he
  have hu' := (hr.other hu hd).2
  refine ⟨⟨c, u, hget, hbound, htable, hu', hplan⟩, fun w m hw hm => ?_⟩
  rw [hu'] at hw
  cases hw
  rw [hr.rows] at hm
  exact ho u m hu hm

theorem Obeyed.restated {d' : Declared} (ho : Obeyed r db d) (hT : TablesHold db)
    (hr : Restates db db' d.table tb tb' cols) (hreads : ∀ i, d.term.reads i = true → i < tb.ncols)
    (htable : d'.table = tb'.name) (hterm : d'.term = d.term) : Obeyed r db' d' := by
  intro u m hu hm key row v hrow hdec
  rw [htable, hr.table, if_pos rfl] at hu
  cases hu
  have htree : tb'.rowsTree = tb.rowsTree := by rw [Table.rowsTree, Table.rowsTree, hr.longer.id]
  rw [hr.rows, htree] at hm
  obtain ⟨m₀, hm₀, hheld⟩ := hT.rows _ _ hr.there
  rw [hm] at hm₀
  cases hm₀
  obtain ⟨w, hw⟩ := hheld key row hrow
  rw [rowDecode_extends hr.longer.cols hw.decoded] at hdec
  cases hdec
  have heval : d.term.eval r (w ++ cols.map Column.missing) = d.term.eval r w := by
    refine RowTerm.eval_congr (fun i hi => ?_)
    have hlt : i < w.length := hw.whole.length ▸ hreads i hi
    rw [List.getD_append _ _ _ _ hlt]
  have hno := ho tb m hr.there hm key row w hrow hw.decoded
  rw [hterm]
  rintro ⟨x, hx, hfalse⟩
  rw [heval] at hx
  exact hno ⟨x, hx, hfalse⟩

/-- **Checks hold where a record is restated under its name.** -/
theorem ChecksHold.restated (hch : ChecksHold r s ds) (hT : TablesHold s.db) (hr : Restates s.db db' name tb tb' cols)
    (hname : tb'.name = tb.name) : ChecksHold r { s with db := db' } ds := by
  intro d hd
  obtain ⟨he, ho⟩ := hch d hd
  by_cases hdt : d.table = name
  · subst hdt
    obtain ⟨c, u, hget, hbound, htable, hu, hplan⟩ := he
    rw [hr.there] at hu
    cases hu
    have hnamed : tb'.name = d.table := hname.trans (hT.named _ _ hr.there)
    refine ⟨⟨c, tb', hget, hbound, htable, ?_, plan_longer hname hr.longer.cols hplan⟩,
      ho.restated hT hr (fun i hi => plan_reads hplan hi) hnamed.symm rfl⟩
    show db'.table d.table = some tb'
    rw [hr.table, if_pos hnamed.symm]
  · exact he.other ho hr hdt

theorem ChecksHold.made (hch : ChecksHold r s ds) (hT : TablesHold s.db) (hmk : Makes s.db db' tb) :
    ChecksHold r { s with db := db' } ds := by
  intro d hd
  obtain ⟨⟨c, u, hget, hbound, htable, hu, hplan⟩, ho⟩ := hch d hd
  have hne : d.table ≠ tb.name := by
    intro he
    rw [he, hmk.fresh] at hu
    cases hu
  have hu' : db'.table d.table = some u := by rw [hmk.table, if_neg hne, hu]
  have htree : u.rowsTree ≠ tb.rowsTree := by
    intro he
    obtain ⟨m, hm, -⟩ := hT.rows _ _ hu
    rw [he, hmk.absent] at hm
    cases hm
  refine ⟨⟨c, u, hget, hbound, htable, hu', hplan⟩, fun w m hw hm => ?_⟩
  rw [hu'] at hw
  cases hw
  rw [hmk.rows u htree] at hm
  exact ho u m hu hm

theorem createIndexes_checks : ∀ {uniques : List (List Bytes)} {db db' : Db}, ChecksHold r { s with db := db } ds →
    TablesHold db → createIndexes name db uniques = .ok db' → TablesHold db' ∧ ChecksHold r { s with db := db' } ds
  | [], db, db', hch, hT, hc => by
    cases hc
    exact ⟨hT, hch⟩
  | cols :: uniques, db, db', hch, hT, hc => by
    rw [createIndexes] at hc
    split at hc
    · cases hc
    rename_i tb hopen
    split at hc
    · cases hc
    split at hc
    · cases hc
    rename_i db₁ hindex
    obtain ⟨x, hr⟩ := hT.restates_index (tableOpen_ok hopen) hindex
    have hch₁ := hch.restated hT hr rfl
    exact createIndexes_checks hch₁ (hT.restated hr) hc

/-! ## Checks declared, and dropped -/

theorem ckCount_zero {t : RowTerm} : ∀ {rows : List (Bytes × Bytes)}, ckCount r tb t rows = .ok 0 →
    ∀ key row v, (key, row) ∈ rows → rowDecode tb row = .ok v → ¬ Fails r t v
  | [], _, _, _, _, hmem, _ => by cases hmem
  | (key₀, row₀) :: rows, hc, key, row, v, hmem, hdec => by
    rw [ckCount] at hc
    split at hc
    · cases hc
    rename_i v₀ hv₀
    split at hc
    · cases hc
    rename_i x hx
    split at hc
    · cases hc
    rename_i n hrest
    by_cases hno : truth x = .no
    · rw [if_pos hno] at hc
      cases hc
    rw [if_neg hno] at hc
    rcases List.mem_cons.1 hmem with he | hmem
    · cases he
      rw [hv₀] at hdec
      cases hdec
      rintro ⟨y, hy, hfalse⟩
      rw [hx] at hy
      cases hy
      exact hno hfalse
    · exact ckCount_zero (hrest.trans hc) key row v hmem hdec

structure Created (r : RowHost) (s s' : Schema) (table : Bytes) (sc : SqlCheck) (tb : Table) (t : RowTerm) : Prop where
  free : s.constraints.get (ckName table sc) = none
  opened : tableOpen s.db table = .ok tb
  planned : r.plan tb sc.text = .ok t
  none : ckFailing r s.db.trees tb t = .ok 0
  left : s' = { s with
    constraints := s.constraints.put (ckName table sc) (.check ⟨ckName table sc, table, sc.text, true⟩) }

theorem ckCreate_ok (hc : ckCreate r s table sc = .ok s') : ∃ tb t, Created r s s' table sc tb t := by
  unfold ckCreate at hc
  dsimp only at hc
  split_ifs at hc with hthere hconst
  split at hc
  · cases hc
  rename_i tb t hplan
  split at hc
  · cases hc
  · cases hc
  rename_i hnone
  split at hc
  · cases hc
  cases hc
  unfold ckPlan at hplan
  split at hplan
  · cases hplan
  rename_i u hopen
  split at hplan
  · cases hplan
  rename_i t' ht
  cases hplan
  exact ⟨_, _, by simpa using hthere, hopen, ht, hnone, rfl⟩

theorem Created.declared (hc : Created r s s' table sc tb t) :
    s'.db = s.db ∧ declare r s'.db table sc = some ⟨ckName table sc, table, t⟩ := by
  have hdb : s'.db = s.db := by rw [hc.left]
  refine ⟨hdb, ?_⟩
  rw [declare, ckPlan, hdb, hc.opened]
  dsimp only
  rw [hc.planned]

/-- **A check that is created holds**, beside those that held. -/
theorem Created.checks (hc : Created r s s' table sc tb t) (hch : ChecksHold r s ds) :
    ChecksHold r s' (ds ++ [⟨ckName table sc, table, t⟩]) := by
  have htb := tableOpen_ok hc.opened
  intro d hd
  rw [hc.left]
  rcases List.mem_append.1 hd with hd | hd
  · obtain ⟨⟨c, u, hget, hbound, htable, hu, hplan⟩, ho⟩ := hch d hd
    have hne : d.name ≠ ckName table sc := by
      intro he
      rw [he, hc.free] at hget
      cases hget
    refine ⟨⟨c, u, ?_, hbound, htable, hu, hplan⟩, ho⟩
    rw [SortedMap.get_put_of_ne _ hne]
    exact hget
  · rw [List.mem_singleton.1 hd]
    refine ⟨⟨_, tb, SortedMap.get_put_self .., rfl, rfl, htb, hc.planned⟩, fun u m hu hm key row v hrow hdec => ?_⟩
    rw [htb] at hu
    cases hu
    have hnone := hc.none
    unfold ckFailing at hnone
    rw [Engine.treeFind_some tb.rowsTree_short hm] at hnone
    exact ckCount_zero hnone key row v (SortedMap.get_eq_some_iff.1 hrow) hdec

theorem ckCreateAll_checks {table : Bytes} : ∀ {scs : List SqlCheck} {s : Schema} {ds : List Declared},
    ChecksHold r s ds → ckCreateAll r table s scs = .ok s' →
    s'.db = s.db ∧ ChecksHold r s' (ds ++ scs.filterMap (declare r s'.db table))
  | [], s, ds, hch, hc => by
    cases hc
    rw [List.filterMap_nil, List.append_nil]
    exact ⟨rfl, hch⟩
  | sc :: scs, s, ds, hch, hc => by
    rw [ckCreateAll] at hc
    split at hc
    · cases hc
    rename_i s₁ hone
    obtain ⟨tb, t, hmade⟩ := ckCreate_ok hone
    obtain ⟨hdb₁, hdecl⟩ := hmade.declared
    obtain ⟨hdb, hall⟩ := ckCreateAll_checks (hmade.checks hch) hc
    refine ⟨hdb.trans hdb₁, ?_⟩
    rw [List.filterMap_cons, hdb, hdecl, ← hdb]
    simpa using hall

theorem ChecksHold.dropped (hch : ChecksHold r s ds) (hd : s.dropConstraint table name = .ok s') :
    s'.db = s.db ∧ ChecksHold r s' (ds.filter (fun d => d.name ≠ name)) := by
  unfold Schema.dropConstraint at hd
  split at hd
  · cases hd
  split_ifs at hd
  cases hd
  refine ⟨rfl, fun d hmem => ?_⟩
  obtain ⟨hmem, hne⟩ := List.mem_filter.1 hmem
  obtain ⟨⟨c, u, hget, hbound, htable, hu, hplan⟩, ho⟩ := hch d hmem
  refine ⟨⟨c, u, ?_, hbound, htable, hu, hplan⟩, ho⟩
  rw [SortedMap.get_del_of_ne _ (by simpa using hne)]
  exact hget

/-! ## A table renamed -/

theorem ChecksHold.followed {newName : Bytes} (hch : ChecksHold r s ds) (hT : TablesHold s.db)
    (hren : s.rename table newName = .ok s') (hspares : Statement.Spares r s (.rename table newName)) :
    TablesHold s'.db ∧ ChecksHold r s' (ds.map (Declared.renamed table newName)) := by
  unfold Schema.rename at hren
  split at hren
  · cases hren
  rename_i db' hdb
  cases hren
  obtain ⟨tb, hr, hne⟩ := hT.restates_rename hdb
  have hnamed := hT.named _ _ hr.there
  refine ⟨hT.restated hr, fun d' hd' => ?_⟩
  obtain ⟨d, hd, rfl⟩ := List.mem_map.1 hd'
  obtain ⟨⟨c, u, hget, hbound, htable, hu, hplan⟩, ho⟩ := hch d hd
  have hfollow : (s.constraints.mapVal (Constraint.follow table newName)).get d.name =
      some (Constraint.follow table newName (.check c)) := by rw [SortedMap.get_mapVal, hget, Option.map_some]
  by_cases hdt : d.table = table
  · subst hdt
    have hrenamed : d.renamed d.table newName = { d with table := newName } := if_pos rfl
    rw [hrenamed]
    rw [hr.there] at hu
    cases hu
    rw [Constraint.follow, if_pos htable] at hfollow
    refine ⟨⟨{ c with table := newName }, { tb with name := newName }, hfollow, hbound, rfl, ?_, ?_⟩,
      ho.restated hT hr (fun i hi => plan_reads hplan hi) rfl rfl⟩
    · show db'.table newName = _
      rw [hr.table, if_pos rfl]
    · show r.plan { tb with name := newName } c.text = .ok d.term
      unfold RowHost.plan at hplan ⊢
      split at hplan
      · cases hplan
      rename_i e he
      have hunq := hspares _ c e hget htable he
      rw [← hnamed] at hunq hne
      exact (bind_renamed hne hplan).2 hunq
  · have hrenamed : d.renamed table newName = d := if_neg hdt
    rw [hrenamed]
    rw [Constraint.follow, if_neg (fun he => hdt (htable.symm.trans he))] at hfollow
    obtain ⟨⟨c', u', hget', hrest⟩, ho'⟩ := Enforced.other ⟨c, u, hget, hbound, htable, hu, hplan⟩ ho hr hdt
    rw [hget] at hget'
    cases hget'
    exact ⟨⟨c, u', hfollow, hrest⟩, ho'⟩

/-! ## Every state reached -/

theorem createTable_checks {cols : List ColDef} {key : List Nat} {uniques : List (List Bytes)} {checks : List SqlCheck}
    (hch : ChecksHold r s ds) (hT : TablesHold s.db) (hc : s.createTable r name cols key uniques checks = .ok s') :
    TablesHold s'.db ∧ ChecksHold r s' (ds ++ checks.filterMap (declare r s'.db name)) := by
  unfold Schema.createTable at hc
  split at hc
  · cases hc
  rename_i db₁ hcreate
  split at hc
  · cases hc
  split at hc
  · cases hc
  split at hc
  · cases hc
  rename_i db₂ hindexes
  have hread : ∀ c ∈ cols.map ColDef.col, Key.Readable ⟨false, false⟩ c.missing := by
    intro c hmem
    obtain ⟨def', -, rfl⟩ := List.mem_map.1 hmem
    exact def'.evaluated
  obtain ⟨id, hmk⟩ := tableCreate_ok hread hcreate
  obtain ⟨hT₂, hch₂⟩ := createIndexes_checks (hch.made hT hmk) (hT.made hmk) hindexes
  obtain ⟨hdb, hall⟩ := ckCreateAll_checks hch₂ hc
  exact ⟨hdb ▸ hT₂, hall⟩

/-- **A statement that succeeds keeps the checks**, where it spares them. -/
theorem statement_checks {stmt : Statement} (hch : ChecksHold r s ds) (hT : TablesHold s.db)
    (hok : stmt.run r h s = .ok s') (hspares : stmt.Spares r s) :
    TablesHold s'.db ∧ ChecksHold r s' (stmt.declares r s s' ds) := by
  cases stmt with
  | createTable ifNotExists name cols key uniques checks =>
    unfold Statement.run at hok
    unfold Statement.declares
    dsimp only at hok ⊢
    split_ifs at hok ⊢
    · cases hok
      exact ⟨hT, hch⟩
    · exact createTable_checks hch hT hok
  | addColumn table col check =>
    have hnone : check = none := hspares
    subst hnone
    unfold Statement.run Schema.addColumn at hok
    unfold Statement.declares
    dsimp only at hok ⊢
    split at hok
    · cases hok
    rename_i tb hopen
    split at hok
    · cases hok
    split at hok
    · cases hok
    rename_i db' hadd
    cases hok
    have hr := hT.restates_column col.evaluated (tableOpen_ok hopen) hadd
    refine ⟨hT.restated hr, ?_⟩
    rw [Option.toList_none, List.filterMap_nil, List.append_nil]
    exact hch.restated hT hr rfl
  | addCheck table sc =>
    have hok : ckCreate r s table sc = .ok s' := hok
    obtain ⟨tb, t, hmade⟩ := ckCreate_ok hok
    obtain ⟨hdb, hdecl⟩ := hmade.declared
    refine ⟨hdb ▸ hT, ?_⟩
    show ChecksHold r s' (ds ++ [sc].filterMap (declare r s'.db table))
    rw [List.filterMap_cons, hdecl]
    exact hmade.checks hch
  | dropConstraint table name =>
    obtain ⟨hdb, hall⟩ := hch.dropped hok
    exact ⟨hdb ▸ hT, hall⟩
  | rename table newName => exact hch.followed hT hok hspares
  | rows stmt =>
    unfold Statement.run at hok
    dsimp only at hok
    split at hok
    · cases hok
    rename_i n hr
    cases hok
    exact rows_checks hch hT hr

theorem tablesHold_none : TablesHold Db.none where
  named _ _ htb := by cases htb
  fits _ _ htb := by cases htb
  apart _ _ _ _ htb := by cases htb
  rows _ _ htb := by cases htb

/-- **CHECKs hold in every state reached** by statements that succeed and spare them: each one declared and not dropped
is kept with its meaning, and no row of its table makes it false. -/
theorem checksHold_runs (hrun : CheckRuns r h (Statement.Spares r) s ds) : ChecksHold r s ds := by
  have hboth : TablesHold s.db ∧ ChecksHold r s ds := by
    induction hrun with
    | start => exact ⟨tablesHold_none, fun d hd => by cases hd⟩
    | step _ stmt hok hspares ih => exact statement_checks ih.2 ih.1 hok hspares
    | foreign _ cs hchecks ih =>
      refine ⟨ih.1, fun d hd => ?_⟩
      obtain ⟨⟨c, u, hget, hrest⟩, ho⟩ := ih.2 d hd
      exact ⟨⟨c, u, (hchecks _ _).2 hget, hrest⟩, ho⟩
  exact hboth.2

end

/-! ## A check that a rename or a column leaves behind -/

def isPositive (args : List (Except Error Bytes)) : Except Error Bytes :=
  match args with
  | [.ok v] =>
    match readU64 v with
    | some n => .ok [byte SER_BOOL, byte (if n = 0 then 0 else 1)]
    | none => .ok [byte Key.SER_UNKNOWN]
  | _ => .ok [byte Key.SER_UNKNOWN]

/-- A parser of three texts. -/
def stockHost : RowHost :=
  ⟨fun s =>
    if s = text "n > 0" then .ok (.op isPositive [.name (text "n") []])
    else if s = text "stock.n > 0" then .ok (.op isPositive [.name (text "stock") [text "n"]])
    else if s = text "m > 0" then .ok (.op isPositive [.name (text "m") []])
    else .error (fail .syntaxError []), fun v _ => .ok v⟩

def numberColumn (name : Bytes) : ColDef where
  col := ⟨name, .integer, [], false, none, .none, [], 0, none⟩
  evaluated := by
    show Key.Readable ⟨false, false⟩ [byte Key.SER_UNKNOWN]
    decide

def createStock (check : String) : Statement :=
  .createTable false (text "stock") [numberColumn (text "n")] [] [] [⟨none, none, text check⟩]

def insertNumbers (table : Bytes) (ns : List Nat) : Statement :=
  .rows (.insert table (List.range ns.length)
    (.values ⟨ns.length, [ns.map (fun n => some (.const (.ok (hostNumber n))))], by simp⟩)
    (fun _ _ _ => .ok hostAbsent))

def leaves (r : RowHost) (h : Host) : Schema → List Statement → Schema
  | s, [] => s
  | s, stmt :: stmts =>
    match stmt.run r h s with
    | .ok s' => leaves r h s' stmts
    | .error _ => leaves r h s stmts

def noTables : Schema := ⟨Db.none, .empty⟩

def stockMade : Schema := leaves stockHost plainHost noTables [createStock "n > 0"]

def stockFilled : Schema := leaves stockHost plainHost stockMade [insertNumbers (text "stock") [3]]

def stockMoved : Schema := leaves stockHost plainHost stockFilled [.rename (text "stock") (text "goods")]

theorem checksHold_goods : ∃ d : Declared, d.table = text "goods" ∧ ChecksHold stockHost stockMoved [d] := by
  have hmade : CheckRuns stockHost plainHost (Statement.Spares stockHost) stockMade
      ((createStock "n > 0").declares stockHost noTables stockMade []) := .step .start _ (by rfl) trivial
  have hfilled : CheckRuns stockHost plainHost (Statement.Spares stockHost) stockFilled _ :=
    .step hmade (insertNumbers (text "stock") [3]) (by rfl) trivial
  have hspares : Statement.Spares stockHost stockFilled (.rename (text "stock") (text "goods")) := by
    intro n c e hget htable he
    have hentry := SortedMap.get_eq_some_iff.1 hget
    have hentries : stockFilled.constraints.entries =
        [(text "stock_check", .check ⟨text "stock_check", text "stock", text "n > 0", true⟩)] := by rfl
    rw [hentries, List.mem_singleton] at hentry
    cases hentry
    cases he
    exact ⟨by rfl, by rfl⟩
  have hmoved : CheckRuns stockHost plainHost (Statement.Spares stockHost) stockMoved _ :=
    .step hfilled (.rename (text "stock") (text "goods")) (by rfl) hspares
  exact ⟨_, by rfl, checksHold_runs hmoved⟩

def qualifiedMade : Schema := leaves stockHost plainHost noTables [createStock "stock.n > 0"]

def qualifiedMoved : Schema := leaves stockHost plainHost qualifiedMade [.rename (text "stock") (text "goods")]

def qualifiedFilled : Schema := leaves stockHost plainHost qualifiedMoved [insertNumbers (text "goods") [0]]

def goods : Table := (qualifiedFilled.db.table (text "goods")).getD staff

/-- The check of `stock.n` no longer binds on `goods`, and is passed over. -/
theorem renamed_check_unenforced : ¬ ∀ (r : RowHost) (h : Host) (s : Schema) (ds : List Declared),
    CheckRuns r h (fun _ _ => True) s ds → ChecksHold r s ds := by
  intro hall
  have hmade : CheckRuns stockHost plainHost (fun _ _ => True) qualifiedMade _ :=
    .step .start (createStock "stock.n > 0") (by rfl) trivial
  have hmoved : CheckRuns stockHost plainHost (fun _ _ => True) qualifiedMoved _ :=
    .step hmade (.rename (text "stock") (text "goods")) (by rfl) trivial
  have hfilled : CheckRuns stockHost plainHost (fun _ _ => True) qualifiedFilled
      [⟨text "stock_check", text "goods", .op isPositive [.col 0 []]⟩] :=
    .step hmoved (insertNumbers (text "goods") [0]) (by rfl) trivial
  obtain ⟨-, ho⟩ := hall _ _ _ _ hfilled _ (List.mem_cons_self ..)
  refine ho goods ((qualifiedFilled.db.trees goods.rowsTree).getD .empty) (by rfl) (by rfl) (hiddenKey 1)
    (rowEncode goods [putExact 0]) [putExact 0] (by rfl) (by rfl) ⟨[byte SER_BOOL, byte 0], by rfl, by rfl⟩

def checkedColumn : Statement :=
  .addColumn (text "stock") (numberColumn (text "m")) (some ⟨none, some (text "m"), text "m > 0"⟩)

def addedColumn : Schema := leaves stockHost plainHost stockFilled [checkedColumn]

def addedFilled : Schema := leaves stockHost plainHost addedColumn [insertNumbers (text "stock") [1, 0]]

theorem added_check_unenforced : ∃ (ds : List Declared) (d : Declared),
    CheckRuns stockHost plainHost (fun _ _ => True) addedFilled ds ∧ d ∈ ds ∧ d.name = text "stock_m_check" ∧
      addedFilled.constraints.get d.name = none ∧ ¬ Obeyed stockHost addedFilled.db d := by
  have hmade : CheckRuns stockHost plainHost (fun _ _ => True) stockMade _ :=
    .step .start (createStock "n > 0") (by rfl) trivial
  have hfilled : CheckRuns stockHost plainHost (fun _ _ => True) stockFilled _ :=
    .step hmade (insertNumbers (text "stock") [3]) (by rfl) trivial
  have hcolumn : CheckRuns stockHost plainHost (fun _ _ => True) addedColumn _ :=
    .step hfilled checkedColumn (by rfl) trivial
  have hrow : CheckRuns stockHost plainHost (fun _ _ => True) addedFilled
      [⟨text "stock_check", text "stock", .op isPositive [.col 0 []]⟩,
        ⟨text "stock_m_check", text "stock", .op isPositive [.col 1 []]⟩] :=
    .step hcolumn (insertNumbers (text "stock") [1, 0]) (by rfl) trivial
  refine ⟨_, _, hrow, List.mem_cons_of_mem _ (List.mem_cons_self ..), rfl, by rfl, fun ho => ?_⟩
  have hstock : addedFilled.db.table (text "stock") = some ((addedFilled.db.table (text "stock")).getD staff) := by rfl
  exact ho _ ((addedFilled.db.trees ((addedFilled.db.table (text "stock")).getD staff).rowsTree).getD .empty) hstock
    (by rfl) (hiddenKey 2) (rowEncode ((addedFilled.db.table (text "stock")).getD staff) [putExact 1, putExact 0])
    [putExact 1, putExact 0] (by rfl) (by rfl) ⟨[byte SER_BOOL, byte 0], by rfl, by rfl⟩

end Gsql
end Gbasic
