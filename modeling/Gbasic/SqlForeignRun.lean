import Gbasic.SqlForeign
import Gbasic.SqlMoves
/-!
# SqlForeignRun — foreign keys hold in every state reached

Each row is checked against the rows there when its statement began.  An INSERT's rows are written one by one, so what a
row found is there when it is in.  An UPDATE's are written together: a row may reference the old key of a row that the
same UPDATE moves away, which only a table that references itself lets it do (`Changing.Meets`).
-/
namespace Gbasic
namespace Gsql

open Engine (Trees Tree Bytes)

variable {s : Changing} {c : RowChange} {cs : List RowChange}

/-- The tables of a database: records by their names, rows of their own that read, under their keys. -/
structure TablesHold (db : Db) : Prop where
  named : ∀ name tb, db.table name = some tb → tb.name = name
  fits : ∀ name tb, db.table name = some tb → TableFit tb
  apart : ∀ name tb name' tb', db.table name = some tb → db.table name' = some tb' → tb.rowsTree = tb'.rowsTree →
    name = name'
  rows : ∀ name tb, db.table name = some tb → ∃ m, db.trees tb.rowsTree = some m ∧ RowsHeld tb m

/-- Every row of a child whose foreign key is enforced and bound finds its parent. -/
def ForeignKeysHold (fks : List FkRec) (db : Db) : Prop :=
  ∀ k ∈ fks, k.enforced = true → k.bound = true → ∀ child b m, tableOpen db k.table = .ok child →
    fkBound db k child = some b → db.trees child.rowsTree = some m →
    ∀ key row v, m.get key = some row → rowDecode child row = .ok v → Finds db.trees b v

def ParentsInOrder (fks : List FkRec) (db : Db) (tb : Table) : Prop :=
  ∀ k ∈ fks, k.enforced = true → k.bound = true → k.table = tb.name → ∀ b, fkBound db k tb = some b →
  KeyInOrder b.parent

/-- A row that an UPDATE makes reference, in its own table, a row that it changes references a key that the changes
leave. -/
def Changing.KeepsOwn (fks : List FkRec) (tb : Table) (s : Changing) (db : Db) (m : Tree) (cs : List RowChange) :
    Prop :=
  ∀ k ∈ fks, k.enforced = true → k.bound = true → k.table = tb.name → k.ref = tb.name → ∀ b, fkBound db k tb = some b →
    ∀ c ∈ cs, ∀ v, s.becomes tb m c = some v → (b.values v).any isAbsentBytes = false →
    ∀ pk, rowKey tb ((b.values v).map some) = .ok pk → pk ∈ cs.map RowChange.key →
    ∃ c' ∈ cs, ∃ v', s.becomes tb m c' = some v' ∧ primaryKey tb v' = .ok pk

/-- What the checks leave out, of a statement on a database. -/
def Meets (h : Host) (fks : List FkRec) (db : Db) : Stmt → Prop
  | .insert name _ _ _ => ∀ tb, tableOpen db name = .ok tb → ParentsInOrder fks db tb
  | .change name s => s.update = true → ∀ tb, tableOpen db name = .ok tb → ParentsInOrder fks db tb ∧
      ∀ m cs, db.trees tb.rowsTree = some m → s.changes h tb db = .ok cs → s.KeepsOwn fks tb db m cs

/-- Statements that succeed and meet a condition, one after another. -/
inductive StmtRuns (h : Host) (fks : List FkRec) (P : Db → Stmt → Prop) : Db → Db → Prop where
  | start (db : Db) : StmtRuns h fks P db db
  | step {db₀ db : Db} {n : Nat} (hrun : StmtRuns h fks P db₀ db) (stmt : Stmt)
      (hok : (stmt.run h fks db).answer = .ok n) (hmeets : P db stmt) :
      StmtRuns h fks P db₀ (stmt.run h fks db).db

/-! ## Foreign keys, run -/

def findsNow (t : Trees) (b : Binding) (v : Vals) : Bool :=
  (b.values v).any isAbsentBytes ||
    match rowKey b.parent ((b.values v).map some), t b.parent.rowsTree with
    | .ok k, some m => (m.get k).isSome
    | _, _ => false

theorem findsNow_iff (t : Trees) (b : Binding) (v : Vals) : findsNow t b v = true ↔ Finds t b v := by
  unfold findsNow Finds
  rw [Bool.or_eq_true]
  constructor
  · rintro (habsent | hfound) hnone
    · rw [habsent] at hnone
      cases hnone
    · split at hfound
      · rename_i k m hk hm
        exact ⟨k, m, hk, hm, hfound⟩
      · cases hfound
  · intro h
    by_cases habsent : (b.values v).any isAbsentBytes = true
    · exact .inl habsent
    · obtain ⟨k, m, hk, hm, hthere⟩ := h (by simpa using habsent)
      right
      rw [hk, hm]
      exact hthere

def rowFinds (t : Trees) (child : Table) (b : Binding) (e : Bytes × Bytes) : Bool :=
  match rowDecode child e.2 with
  | .error _ => true
  | .ok v => findsNow t b v

def foreignKeysNow (fks : List FkRec) (db : Db) : Bool :=
  fks.all (fun k => !k.enforced || !k.bound ||
    match tableOpen db k.table with
    | .error _ => true
    | .ok child =>
      match fkBound db k child, db.trees child.rowsTree with
      | some b, some m => m.entries.all (rowFinds db.trees child b)
      | _, _ => true)

theorem foreignKeysNow_iff (fks : List FkRec) (db : Db) : foreignKeysNow fks db = true ↔ ForeignKeysHold fks db := by
  unfold foreignKeysNow
  rw [List.all_eq_true]
  constructor
  · intro h k hk henf hbound child b m hopen hb hm key row v hrow hdec
    have hone := h k hk
    rw [henf, hbound, hopen] at hone
    dsimp only at hone
    rw [hb, hm] at hone
    have hentry : rowFinds db.trees child b (key, row) = true :=
      List.all_eq_true.1 hone (key, row) (SortedMap.get_eq_some_iff.1 hrow)
    unfold rowFinds at hentry
    rw [hdec] at hentry
    exact (findsNow_iff _ _ _).1 hentry
  · intro h k hk
    rcases henf : k.enforced
    · rfl
    rcases hbound : k.bound
    · rfl
    rcases hopen : tableOpen db k.table with e | child
    · rfl
    dsimp only
    rcases hb : fkBound db k child with _ | b
    · rfl
    rcases hm : db.trees child.rowsTree with _ | m
    · rfl
    refine List.all_eq_true.2 ?_
    rintro ⟨key, row⟩ he
    unfold rowFinds
    split
    · rfl
    · rename_i v hdec
      exact (findsNow_iff _ _ _).2 (h k hk henf hbound child b m hopen hb hm key row v
        (SortedMap.get_eq_some_iff.2 he) hdec)

instance (fks : List FkRec) (db : Db) : Decidable (ForeignKeysHold fks db) :=
  decidable_of_iff _ (foreignKeysNow_iff fks db)

section
variable {h : Host} {fks : List FkRec} {tb : Table} {db db' : Db} {name : Bytes} {m m' : Tree}

theorem table_congr (hcat : db'.catalog = db.catalog) (n : Bytes) : db'.table n = db.table n := by
  rw [Db.table, Db.table, hcat]

theorem TablesHold.same (hT : TablesHold db) {name' : Bytes} {tb' : Table} (h : db.table name = some tb)
    (h' : db.table name' = some tb') (he : tb'.rowsTree = tb.rowsTree) : tb' = tb := by
  have hn := hT.apart _ _ _ _ h' h he
  subst hn
  rw [h] at h'
  exact (Option.some.inj h').symm

theorem TablesHold.replace (hT : TablesHold db) (htb : db.table name = some tb) (hcat : db'.catalog = db.catalog)
    (hm' : db'.trees tb.rowsTree = some m') (hheld : RowsHeld tb m') (hothers : OtherRows tb db.trees db'.trees) :
    TablesHold db' where
  named n r hr := hT.named n r (table_congr hcat n ▸ hr)
  fits n r hr := hT.fits n r (table_congr hcat n ▸ hr)
  apart n r n' r' hr hr' := hT.apart n r n' r' (table_congr hcat n ▸ hr) (table_congr hcat n' ▸ hr')
  rows n r hr := by
    rw [table_congr hcat] at hr
    by_cases he : r.rowsTree = tb.rowsTree
    · rw [hT.same htb hr he]
      exact ⟨m', hm', hheld⟩
    · obtain ⟨mr, hmr, hrows⟩ := hT.rows n r hr
      exact ⟨mr, (hothers r he).trans hmr, hrows⟩

/-- **Foreign keys hold where one table's rows are replaced**: its new rows find their parents where they were looked
for, and what a row found stays. -/
theorem ForeignKeysHold.replace (hT : TablesHold db) (hF : ForeignKeysHold fks db) (htb : db.table name = some tb)
    (hcat : db'.catalog = db.catalog) (hm : db.trees tb.rowsTree = some m) (hm' : db'.trees tb.rowsTree = some m')
    (hothers : OtherRows tb db.trees db'.trees)
    (hnew : ∀ k ∈ fks, k.enforced = true → k.bound = true → k.table = tb.name → ∀ b, fkBound db k tb = some b →
      ∀ key row v, m'.get key = some row → rowDecode tb row = .ok v → m.get key = some row ∨ Finds db.trees b v)
    (hstay : ∀ k ∈ fks, k.enforced = true → k.bound = true → k.ref = tb.name → ∀ child b cm,
      tableOpen db k.table = .ok child →
      fkBound db k child = some b → db'.trees child.rowsTree = some cm → ∀ key row v, cm.get key = some row →
      rowDecode child row = .ok v → (b.values v).any isAbsentBytes = false →
      ∀ pk, rowKey tb ((b.values v).map some) = .ok pk → (m.get pk).isSome → (m'.get pk).isSome) :
    ForeignKeysHold fks db' := by
  intro k hk henf hbound child b cm hopen hb hcm key row v hrow hdec
  rw [tableOpen_congr hcat] at hopen
  rw [fkBound_congr hcat] at hb
  have hchild := tableOpen_ok hopen
  have hfinds : Finds db.trees b v := by
    by_cases he : child.rowsTree = tb.rowsTree
    · have hct := hT.same htb hchild he
      subst hct
      rw [hm'] at hcm
      cases hcm
      rcases hnew k hk henf hbound (hT.named _ _ hchild).symm b hb key row v hrow hdec with hold | hfinds
      · exact hF k hk henf hbound _ b m hopen hb hm key row v hold hdec
      · exact hfinds
    · rw [hothers child he] at hcm
      exact hF k hk henf hbound child b cm hopen hb hcm key row v hrow hdec
  intro habsent
  obtain ⟨pk, p, hkey, hp, hthere⟩ := hfinds habsent
  have hparent := tableOpen_ok (fkBound_some hb).opened
  by_cases he : b.parent.rowsTree = tb.rowsTree
  · have hpt := hT.same htb hparent he
    rw [hpt] at hkey hp ⊢
    rw [hm] at hp
    cases hp
    have href : k.ref = tb.name := by rw [← hpt]; exact (hT.named _ _ hparent).symm
    exact ⟨pk, m', hkey, hm',
      hstay k hk henf hbound href child b cm hopen hb hcm key row v hrow hdec habsent pk hkey hthere⟩
  · exact ⟨pk, p, hkey, (hothers b.parent he).trans hp, hthere⟩

/-! ## Inserting -/

theorem givenRow_keeps {vals : List (Option Bytes)} (hT : TablesHold db) (hF : ForeignKeysHold fks db)
    (htb : db.table name = some tb) (hord : ParentsInOrder fks db tb) (hg : GivenRow h fks tb vals db db') :
    TablesHold db' ∧ ForeignKeysHold fks db' := by
  obtain ⟨m, k, filled, -, hchecks, hcols, hins, hcat⟩ := hg
  have hfit := hT.fits _ _ htb
  obtain ⟨m₀, hm₀, hheld⟩ := hT.rows _ _ htb
  rw [hins.rows] at hm₀
  cases hm₀
  have hnewRow := rowHeld_encode hfit hins.whole hins.key (hcols hfit)
  refine ⟨hT.replace htb hcat hins.now (hheld.put hnewRow) hins.others,
    hF.replace hT htb hcat hins.rows hins.now hins.others ?_ ?_⟩
  · intro fk hfk henf hbound hname b hb key row v hrow hdec
    rw [SortedMap.get_put] at hrow
    split_ifs at hrow
    · right
      cases hrow
      rw [hnewRow.decoded] at hdec
      cases hdec
      rw [finds_stored]
      have hparent := tableOpen_ok (fkBound_some hb).opened
      unfold rowChecks at hchecks
      split_ifs at hchecks with hnone
      · simp only [Bool.and_eq_true, List.isEmpty_iff] at hnone
        rw [hnone.1] at hfk
        cases hfk
      split at hchecks
      · cases hchecks
      exact fkCheckChild_finds hchecks hfk henf hbound hname hb (hT.fits _ _ hparent).key
        (hord fk hfk henf hbound hname b hb)
    · exact .inl hrow
  · intro fk _ _ _ _ child b cm _ _ _ key row v _ _ _ pk _ hthere
    rw [SortedMap.get_put]
    split_ifs
    · rfl
    · exact hthere

theorem givenRows_keeps {rows : List (Db → Except Error (List (Option Bytes)))} (hT : TablesHold db)
    (hF : ForeignKeysHold fks db) (htb : db.table name = some tb) (hord : ParentsInOrder fks db tb)
    (hg : GivenRows h fks tb rows db db') : TablesHold db' ∧ ForeignKeysHold fks db' := by
  induction hg with
  | nil => exact ⟨hT, hF⟩
  | @cons row rows vals db db₁ db' _ hgiven _ ih =>
    have hcat : db₁.catalog = db.catalog := by
      obtain ⟨-, -, -, -, -, -, -, hcat⟩ := hgiven
      exact hcat
    obtain ⟨hT₁, hF₁⟩ := givenRow_keeps hT hF htb hord hgiven
    refine ih hT₁ hF₁ ((table_congr hcat name).trans htb) (fun k hk henf hbound hname b hb => ?_)
    rw [fkBound_congr hcat] at hb
    exact hord k hk henf hbound hname b hb

/-! ## Updating and deleting -/

theorem fkCheckChanges_ok {k : FkRec} (hc : fkCheckChanges h fks tb s db cs = .ok ()) (hk : k ∈ fks)
    (henf : k.enforced = true) (hname : k.table = tb.name ∨ k.ref = tb.name) :
    ∀ c ∈ cs, fkCheckChange h fks tb s db c = .ok () := by
  unfold fkCheckChanges at hc
  have hany : fks.any (fun k => k.enforced && (k.table = tb.name || k.ref = tb.name)) = true :=
    List.any_eq_true.2 ⟨k, hk, by simpa [henf] using hname⟩
  rw [if_pos (by rw [hany, Bool.or_true])] at hc
  exact checkAll_ok hc

structure ChangeChecked (fks : List FkRec) (tb : Table) (s : Changing) (db : Db) (m : Tree) (c : RowChange)
    (old : Vals) :
    Prop where
  there : ∃ row, m.get c.key = some row ∧ rowDecode tb row = .ok old
  child : s.update = true → fkCheckChild db fks tb (s.newVals tb c old) = .ok ()
  parent : s.update = false ∨ (∃ i ∈ tb.key, old.getD i [] ≠ (s.newVals tb c old).getD i []) →
    fkCheckParent db fks tb old = .ok ()

theorem fkCheckChange_ok (hm : db.trees tb.rowsTree = some m) (hc : fkCheckChange h fks tb s db c = .ok ()) :
    ∃ old, ChangeChecked fks tb s db m c old := by
  unfold fkCheckChange at hc
  split at hc
  · cases hc
  rename_i row hrow
  split at hc
  · cases hc
  rename_i old hold
  obtain ⟨-, m₀, hm₀, hg⟩ := rowGet_ok hrow
  rw [hm] at hm₀
  cases hm₀
  by_cases hu : s.update = true
  · rw [if_neg (by simp [hu])] at hc
    split at hc
    · cases hc
    split at hc
    · cases hc
    rename_i hchild
    refine ⟨old, ⟨row, hg, hold⟩, fun _ => hchild, fun hp => ?_⟩
    rcases hp with hp | ⟨i, hi, hne⟩
    · rw [hu] at hp
      cases hp
    · rw [if_pos (List.any_eq_true.2 ⟨i, hi, by simpa using hne⟩)] at hc
      exact hc
  · rw [if_pos (by simpa using hu)] at hc
    exact ⟨old, ⟨row, hg, hold⟩, fun h => absurd h hu, fun _ => hc⟩

theorem ChangeChecked.becomes {old : Vals} (hc : ChangeChecked fks tb s db m c old) :
    s.becomes tb m c = some (s.newVals tb c old) := by
  obtain ⟨row, hg, hold⟩ := hc.there
  rw [Changing.becomes, hg]
  dsimp only
  rw [hold]

theorem moveOf_new {v : Vals} {k : Bytes} (hu : s.update = true) (hv : s.becomes tb m c = some v)
    (hk : keyAfter tb c.key v = .ok k) : (s.moveOf tb m c).new = some (k, rowEncode tb v) := by
  rw [Changing.moveOf]
  dsimp only
  rw [if_pos hu, hv]
  dsimp only
  rw [hk]

theorem moveOf_update {e : Bytes × Bytes} (hn : (s.moveOf tb m c).new = some e) : s.update = true := by
  by_contra hu
  rw [Changing.moveOf] at hn
  dsimp only at hn
  rw [if_neg hu] at hn
  cases hn

theorem rowKey_key {vals : List (Option Bytes)} {k : Bytes} (hk : rowKey tb vals = .ok k) : tb.key ≠ [] := by
  intro hnil
  rw [rowKey, if_pos hnil] at hk
  cases hk

/-- **A row that is referenced does not leave its key**: its check has looked for what references it. -/
theorem referenced_stays {old : Vals} {k : FkRec} {child : Table} {b : Binding} {cm : Tree} {key row pk : Bytes}
    {v : Vals} (hT : TablesHold db) (htb : db.table name = some tb) (hheld : RowsHeld tb m)
    (hc : ChangeChecked fks tb s db m c old) (hk : k ∈ fks) (henf : k.enforced = true) (hbound : k.bound = true)
    (href : k.ref = tb.name) (hopen : tableOpen db k.table = .ok child) (hb : fkBound db k child = some b)
    (hcm : db.trees child.rowsTree = some cm) (hrow : cm.get key = some row) (hdec : rowDecode child row = .ok v)
    (habsent : (b.values v).any isAbsentBytes = false) (hkey : rowKey tb ((b.values v).map some) = .ok pk)
    (hpk : c.key = pk) : ∃ w, (s.moveOf tb m c).new = some (pk, w) := by
  have hbd := fkBound_some hb
  have hparent : b.parent = tb := by
    have hp := tableOpen_ok hbd.opened
    rw [href, hT.named _ _ htb, htb] at hp
    exact (Option.some.inj hp).symm
  have hne := rowKey_key hkey
  obtain ⟨prow, hg, hold⟩ := hc.there
  obtain ⟨old', hheldOld⟩ := hheld _ _ hg
  have hoo : old' = old := Except.ok.inj (hheldOld.decoded.symm.trans hold)
  subst hoo
  have hprimary : primaryKey tb old' = .ok pk := by
    have hko := hheldOld.key
    unfold KeyOf at hko
    rw [if_neg hne, hpk] at hko
    exact hko
  have hchild := tableOpen_ok hopen
  obtain ⟨cm', hcm', hheldChild⟩ := hT.rows _ _ hchild
  rw [hcm] at hcm'
  cases hcm'
  obtain ⟨v', hv'⟩ := hheldChild _ _ hrow
  have hvv : v' = v := Except.ok.inj (hv'.decoded.symm.trans hdec)
  subst hvv
  have hvals := hbd.inColumn (fun i => hv'.columns.at hv'.whole.length i)
  have hlen := Binding.length_values hbd v'
  rw [hparent] at hvals hlen
  obtain ⟨want, hwant, hwantOld⟩ := fkKey_of_rowKey hlen hkey hprimary hvals
    (fun i _ => hheldOld.columns.at hheldOld.whole.length i)
  have hppos : b.ppos = tb.key := by rw [hbd.ppos, hparent]
  -- past the check, no row of the child has the old key
  have hnot : ¬ fkCheckParent db fks tb old' = .ok () := by
    intro hcheck
    refine fkCheckParent_unreferenced hcheck hk henf hbound href hopen hb hcm hrow hdec habsent ?_ hwant
    rw [hppos]
    exact hwantOld
  have hu : s.update = true := by
    by_contra hu
    exact hnot (hc.parent (.inl (by simpa using hu)))
  have hsame : ∀ i ∈ tb.key, SameAt tb tb old' (s.newVals tb c old') i := by
    intro i hi
    refine ⟨rfl, ?_⟩
    by_contra hdiff
    exact hnot (hc.parent (.inr ⟨i, hi, fun he => hdiff he.symm⟩))
  have hafter : keyAfter tb c.key (s.newVals tb c old') = .ok pk := by
    rw [keyAfter, if_neg hne]
    exact primaryKeyFrom_same hsame hprimary
  exact ⟨_, moveOf_new hu hc.becomes hafter⟩

theorem Changed.rows (hfit : TableFit tb) (hheld : RowsHeld tb m) (hch : Changed h fks tb s db db' m cs m')
    {key row : Bytes} (hrow : m'.get key = some row) :
    m.get key = some row ∨ ∃ c ∈ cs, ∃ v, s.update = true ∧ s.becomes tb m c = some v ∧
      RowHeld tb key row (v.map stored) := by
  have hnd : ((cs.map (s.moveOf tb m)).map Move.key).Nodup := by rw [moveOf_key]; exact hch.once
  have hthere : ∀ mv ∈ cs.map (s.moveOf tb m), (m.get mv.key).isSome := by
    intro mv hmv
    obtain ⟨c, hc, rfl⟩ := List.mem_map.1 hmv
    exact hch.there c hc
  rcases (hch.moved.get_eq_some hnd hthere).1 hrow with ⟨-, hold⟩ | ⟨mv, hmv, hnew⟩
  · exact .inl hold
  · obtain ⟨c, hc, rfl⟩ := List.mem_map.1 hmv
    obtain ⟨v, hv, -, -, hheldNew⟩ := (hch.written c hc).2 key row hnew
    exact .inr ⟨c, hc, v, moveOf_update hnew, hv, hheldNew hfit hheld⟩

theorem Changed.held (hfit : TableFit tb) (hheld : RowsHeld tb m) (hch : Changed h fks tb s db db' m cs m') :
    RowsHeld tb m' := by
  intro key row hrow
  rcases hch.rows hfit hheld hrow with hold | ⟨-, -, v, -, -, hnew⟩
  · exact hheld key row hold
  · exact ⟨_, hnew⟩

/-- **An UPDATE or DELETE keeps both**, where no row comes to reference a key that its own table's changes take away. -/
theorem changed_keeps (hT : TablesHold db) (hF : ForeignKeysHold fks db) (htb : db.table name = some tb)
    (hm : db.trees tb.rowsTree = some m) (hheld : RowsHeld tb m) (hch : Changed h fks tb s db db' m cs m')
    (hord : s.update = true → ParentsInOrder fks db tb) (hown : s.update = true → s.KeepsOwn fks tb db m cs) :
    TablesHold db' ∧ ForeignKeysHold fks db' := by
  have hkeys := moveOf_key s tb m cs
  have hnd : ((cs.map (s.moveOf tb m)).map Move.key).Nodup := by rw [hkeys]; exact hch.once
  have hthere : ∀ mv ∈ cs.map (s.moveOf tb m), (m.get mv.key).isSome := by
    intro mv hmv
    obtain ⟨c, hc, rfl⟩ := List.mem_map.1 hmv
    exact hch.there c hc
  have hrows : ∀ key row, m'.get key = some row → m.get key = some row ∨ ∃ c ∈ cs, ∃ v, s.update = true ∧
      s.becomes tb m c = some v ∧ RowHeld tb key row (v.map stored) :=
    fun key row hrow => hch.rows (hT.fits _ _ htb) hheld hrow
  have hheld' := hch.held (hT.fits _ _ htb) hheld
  have hname := hT.named _ _ htb
  refine ⟨hT.replace htb hch.catalog hch.now hheld' hch.others,
    hF.replace hT htb hch.catalog hm hch.now hch.others ?_ ?_⟩
  · intro k hk henf hbound hkname b hb key row v hrow hdec
    rcases hrows key row hrow with hold | ⟨c, hc, v', hu, hv', hnew⟩
    · exact .inl hold
    · right
      rw [hnew.decoded] at hdec
      cases hdec
      rw [finds_stored]
      obtain ⟨old, hcheck⟩ := fkCheckChange_ok hm (fkCheckChanges_ok hch.checked hk henf (.inl hkname) c hc)
      have hbecomes := hcheck.becomes
      rw [hv'] at hbecomes
      cases hbecomes
      have hparent := tableOpen_ok (fkBound_some hb).opened
      exact fkCheckChild_finds (hcheck.child hu) hk henf hbound hkname hb (hT.fits _ _ hparent).key
        (hord hu k hk henf hbound hkname b hb)
  · intro k hk henf hbound href child b cm hopen hb hcm key row v hrow hdec habsent pk hkey hpk
    refine hch.moved.stays hnd hthere hpk (fun hmem => ?_)
    rw [hkeys] at hmem
    -- where what references the key was there before, the check of the key's row has found it
    have hold : ∀ cm₀, db.trees child.rowsTree = some cm₀ → cm₀.get key = some row →
        ∃ mv ∈ cs.map (s.moveOf tb m), ∃ w, mv.new = some (pk, w) := by
      intro cm₀ hcm₀ hrow₀
      obtain ⟨c, hc, hck⟩ := List.mem_map.1 hmem
      obtain ⟨old, hcheck⟩ := fkCheckChange_ok hm (fkCheckChanges_ok hch.checked hk henf (.inr href) c hc)
      obtain ⟨w, hw⟩ :=
        referenced_stays hT htb hheld hcheck hk henf hbound href hopen hb hcm₀ hrow₀ hdec habsent hkey hck
      exact ⟨_, List.mem_map_of_mem hc, w, hw⟩
    have hchild := tableOpen_ok hopen
    by_cases he : child.rowsTree = tb.rowsTree
    swap
    · rw [hch.others child he] at hcm
      exact hold cm hcm hrow
    have hct := hT.same htb hchild he
    subst hct
    rw [hch.now] at hcm
    cases hcm
    rcases hrows key row hrow with hrow₀ | ⟨c, hc, v', hu, hv', hnew⟩
    · exact hold m hm hrow₀
    · rw [hnew.decoded] at hdec
      cases hdec
      have hkey' : rowKey child ((b.values v').map some) = .ok pk := by
        rw [← hkey, values_stored, rowKey, rowKey, rowKeyFrom_stored]
      have habsent' : (b.values v').any isAbsentBytes = false := by
        rw [← habsent, values_stored, List.any_map]
        congr 1
        funext x
        exact (isAbsentBytes_stored x).symm
      obtain ⟨c', hc', w, hw, hpkw⟩ := hown hu k hk henf hbound
        (hT.named _ _ hchild).symm href b hb c hc v' hv' habsent' pk
        hkey' hmem
      refine ⟨_, List.mem_map_of_mem hc', _, moveOf_new hu hw ?_⟩
      rw [keyAfter, if_neg (rowKey_key hkey)]
      exact hpkw

/-- **A statement that succeeds keeps both**, where it meets what its checks leave out. -/
theorem stmt_keeps {stmt : Stmt} {n : Nat} (hT : TablesHold db) (hF : ForeignKeysHold fks db)
    (hmeets : Meets h fks db stmt) (hr : (stmt.run h fks db).answer = .ok n) :
    TablesHold (stmt.run h fks db).db ∧ ForeignKeysHold fks (stmt.run h fks db).db := by
  cases stmt with
  | insert name targets source random =>
    obtain ⟨tb, hopen, -, hrun⟩ := Stmt.insert_steps hr
    rw [hrun] at hr ⊢
    obtain ⟨rows, -, -, hgiven⟩ := runInsert_ok hr
    exact givenRows_keeps hT hF (tableOpen_ok hopen) (hmeets tb hopen) hgiven
  | change name s =>
    obtain ⟨tb, hopen, hrun⟩ := Stmt.change_steps hr
    rw [hrun] at hr ⊢
    have htb := tableOpen_ok hopen
    obtain ⟨m, hm, hheld⟩ := hT.rows _ _ htb
    obtain ⟨cs, m', -, hch⟩ := runUpdateDelete_ok hm hr
    exact changed_keeps hT hF htb hm hheld hch (fun hu => (hmeets hu tb hopen).1)
      (fun hu => (hmeets hu tb hopen).2 m cs hm hch.collected)

theorem stmtRuns_keeps {db₀ : Db} (hT : TablesHold db₀) (hF : ForeignKeysHold fks db₀)
    (hrun : StmtRuns h fks (Meets h fks) db₀ db) :
    TablesHold db ∧ ForeignKeysHold fks db := by
  induction hrun with
  | start => exact ⟨hT, hF⟩
  | step _ stmt hok hmeets ih => exact stmt_keeps ih.1 ih.2 hmeets hok

/-- **Foreign keys hold in every state reached** by statements that succeed and meet what their checks leave out. -/
theorem foreignKeysHold_runs {db₀ : Db} (hT : TablesHold db₀) (hF : ForeignKeysHold fks db₀)
    (hrun : StmtRuns h fks (Meets h fks) db₀ db) : ForeignKeysHold fks db := (stmtRuns_keeps hT hF hrun).2

end

/-! ## A row that references its own table -/

/-- A table of a number and a reference, keyed by the number. -/
def staff : Table :=
  ⟨text "staff", 1, 1, [⟨text "id", .integer, [], true, none, .none, [], 0, none⟩,
    ⟨text "boss", .integer, [], false, none, .none, [], 0, none⟩], [0], []⟩

def staffDb : Db := ⟨some (SortedMap.empty.put staff.name staff), fun n => if n = staff.rowsTree then some .empty
      else none⟩

/-- Its second column references its first. -/
def staffBoss : FkRec := ⟨text "staff_boss", text "staff", text "staff", [text "boss"], [text "id"], true, true,
      by simp⟩

/-- A host that converts nothing, with no CHECKs and no scopes. -/
def plainHost : Host := ⟨fun _ _ v => .ok v, fun _ => [], fun _ _ _ => .ok []⟩

def hostNumber (n : Nat) : HostValue := ⟨putExact n, readable_putExact n⟩

def hostAbsent : HostValue := ⟨[byte Key.SER_UNKNOWN], by decide⟩

def hire (id boss : HostValue) : Stmt :=
  .insert staff.name [0, 1] (.values ⟨2, [[some (.const (.ok id)), some (.const (.ok boss))]], by simp⟩)
    (fun _ _ _ => .ok hostAbsent)

def staffKey : Bytes := (keyComponent [] (staff.col 0) (putExact 1) false).getD []

def renumber : Stmt :=
  .change staff.name ⟨⟨fun _ => .ok [staffKey], by intro _ ks h; cases h; simp⟩, fun _ _ => .ok true, true, [0, 1],
    [some (fun _ _ => .ok (hostNumber 2)), some (fun _ _ => .ok (hostNumber 1))]⟩

theorem staffDb_table {name : Bytes} {tb : Table} (h : staffDb.table name = some tb) :
    name = staff.name ∧ tb = staff := by
  rw [Db.table, staffDb] at h
  dsimp only [Option.bind_some] at h
  rw [SortedMap.get_put] at h
  split_ifs at h with hn
  · exact ⟨hn, (Option.some.inj h).symm⟩
  · cases h

theorem staffDb_tables : TablesHold staffDb where
  named name tb h := by
    obtain ⟨rfl, rfl⟩ := staffDb_table h
    rfl
  fits name tb h := by
    obtain ⟨rfl, rfl⟩ := staffDb_table h
    exact ⟨by decide, by decide, by decide⟩
  apart name tb name' tb' h h' _ := (staffDb_table h).1.trans (staffDb_table h').1.symm
  rows name tb h := by
    obtain ⟨rfl, rfl⟩ := staffDb_table h
    refine ⟨.empty, by simp [staffDb], fun k row hk => ?_⟩
    rw [SortedMap.get_empty] at hk
    cases hk

/-- The row 1, and the row 2 whose boss it is. -/
def staffHired : Db :=
  ((hire (hostNumber 2) (hostNumber 1)).run plainHost [staffBoss]
    ((hire (hostNumber 1) hostAbsent).run plainHost [staffBoss] staffDb).db).db

theorem foreignKeysHold_staff : ForeignKeysHold [staffBoss] staffHired := by
  have hmeets : ∀ db id boss, db.catalog = staffDb.catalog → Meets plainHost [staffBoss] db (hire id boss) := by
    intro db id boss hcat tb _ k hk _ _ _ b hb
    rw [List.mem_singleton.1 hk, fkBound_congr hcat] at hb
    have hparent := staffDb_table (tableOpen_ok (fkBound_some hb).opened)
    rw [hparent.2]
    intro _
    rfl
  refine foreignKeysHold_runs staffDb_tables (by decide +kernel)
    (.step (n := 1) (.step (n := 1) (.start staffDb) (hire (hostNumber 1) hostAbsent) (by rfl) ?_)
      (hire (hostNumber 2) (hostNumber 1)) (by rfl) ?_)
  · exact hmeets _ _ _ rfl
  · exact hmeets _ _ _ (by rfl)

/-- The row 1 becomes 2 with a boss it has found under its own old key. -/
theorem renumber_loses_boss : ¬ ∀ db₀ db, TablesHold db₀ → ForeignKeysHold [staffBoss] db₀ →
    StmtRuns plainHost [staffBoss] (fun _ _ => True) db₀ db → ForeignKeysHold [staffBoss] db := by
  intro h
  have hlost : ¬ ForeignKeysHold [staffBoss] (renumber.run plainHost [staffBoss]
      ((hire (hostNumber 1) hostAbsent).run plainHost [staffBoss] staffDb).db).db := by
    decide +kernel
  exact hlost (h staffDb _ staffDb_tables (by decide +kernel)
    (.step (n := 1) (.step (n := 1) (.start staffDb) (hire (hostNumber 1) hostAbsent) (by rfl) trivial)
      renumber (by rfl) trivial))

end Gsql
end Gbasic
