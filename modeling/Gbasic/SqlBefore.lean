import Gbasic.SqlForeignRun
/-!
# SqlBefore — a data change reads only the state before it

What a statement does to the rows is said without its order of work: the rows an INSERT gives are all evaluated on the
database as it stood, and so is every WHERE and SET of an UPDATE or DELETE (`Stmt.Means`).  An UPDATE collects before it
writes, and so does an INSERT's query; VALUES are evaluated between writes, and read no table (`sourceRows_before`).
What a serial or a random column generates is left open.
-/
namespace Gbasic
namespace Gsql

open Engine (Trees Tree Bytes)

/-! ## What a statement means -/

def Source.given (h : Host) (tb : Table) (targets : List Nat) (db : Db) (source : Source) :
    Except Error (List (List (Option Bytes))) :=
  match source.rows h tb targets db with
  | .error e => .error e
  | .ok rows => rows.mapM (fun row => row db)

inductive Adds (tb : Table) : List (List (Option Bytes)) → Tree → Tree → Prop where
  | nil (m : Tree) : Adds tb [] m m
  | cons {vals filled : List (Option Bytes)} {gs : List (List (Option Bytes))} {m m' : Tree} {k : Bytes}
      (hfills : Fills tb vals filled) (hfree : m.get k = none) (hkey : KeyOf tb (rowValues tb filled) k)
      (hrest : Adds tb gs (m.put k (rowEncode tb (rowValues tb filled))) m') : Adds tb (vals :: gs) m m'

/-- The walk meets a change's row, the WHERE keeps it, and the SETs give it its values, all on one database. -/
def Changing.Picks (h : Host) (tb : Table) (s : Changing) (db : Db) (m : Tree) (c : RowChange) : Prop :=
  ∃ keys row v, s.walk.keys db = .ok keys ∧ c.key ∈ keys ∧ m.get c.key = some row ∧ rowDecode tb row = .ok v ∧
    s.keep db v = .ok true ∧ setValues h tb s db v = .ok c.vals

def Changing.NewRow (tb : Table) (s : Changing) (m : Tree) (c : RowChange) (k row : Bytes) : Prop :=
  ∃ v, s.becomes tb m c = some v ∧ keyAfter tb c.key v = .ok k ∧ row = rowEncode tb v

def Stmt.table : Stmt → Bytes
  | .insert name _ _ _ => name
  | .change name _ => name

/-- `n` rows added, changed or removed turn the rows `m` into `m'`, everything read being what `db` holds. -/
def Stmt.Means (h : Host) (tb : Table) (db : Db) (m : Tree) (n : Nat) (m' : Tree) : Stmt → Prop
  | .insert _ targets source _ => ∃ gs, source.given h tb targets db = .ok gs ∧ n = gs.length ∧ Adds tb gs m m'
  | .change _ s => ∃ cs : List RowChange, (∀ c, c ∈ cs ↔ s.Picks h tb db m c) ∧ (cs.map RowChange.key).Nodup ∧
      n = cs.length ∧ (s.update = true → ∀ c ∈ cs, ∃ k row, s.NewRow tb m c k row) ∧
      ∀ k row, m'.get k = some row ↔
        (k ∉ cs.map RowChange.key ∧ m.get k = some row) ∨ s.update = true ∧ ∃ c ∈ cs, s.NewRow tb m c k row

section
variable {h : Host} {fks : List FkRec} {tb : Table} {db db' : Db} {m m' : Tree} {targets : List Nat}

/-! ## Rows given -/

theorem mapM_congr {α β ε : Type} {f g : α → Except ε β} : ∀ {l : List α}, (∀ a ∈ l, f a = g a) → l.mapM f = l.mapM g
  | [], _ => rfl
  | a :: l, h => by
    rw [List.mapM_cons, List.mapM_cons, h a (List.mem_cons_self ..),
      mapM_congr (fun b hb => h b (List.mem_cons_of_mem _ hb))]

theorem valuesRow_congr {row : List (Option Expr)} (hrow : ∀ e, some e ∈ row → e db = e db') :
    valuesRow h tb targets row db = valuesRow h tb targets row db' := by
  have hall : giveAll h tb targets row db = giveAll h tb targets row db' := by
    refine mapM_congr (fun p hp => ?_)
    obtain ⟨i, item⟩ := p
    cases item with
    | none => rfl
    | some e =>
      have he := hrow e (List.of_mem_zip hp).2
      unfold giveItem
      dsimp only
      rw [he]
  rw [valuesRow, valuesRow, hall]

theorem itemsOf_bound {row : List (Option SqlExpr)} (hrow : checkAll bindItem row = .ok ()) :
    ∀ e, some e ∈ itemsOf row → e db = e db' := by
  intro e he
  obtain ⟨item, hitem, hfun⟩ := List.mem_map.1 he
  cases item with
  | none => cases hfun
  | some x =>
    cases hfun
    exact SqlExpr.eval_bound db db' (checkAll_ok hrow (some x) hitem)

/-- **A row that was planned is the same on every database**: rows written meanwhile do not change it. -/
theorem sourceRows_before {source : Source} {rows : List (Db → Except Error (List (Option Bytes)))}
    (hplan : planInsert tb targets source = .ok ()) (hs : source.rows h tb targets db = .ok rows) :
    ∀ row ∈ rows, ∀ d d', row d = row d' := by
  intro row hrow d d'
  cases source with
  | values v =>
    cases hs
    obtain ⟨items, hitems, rfl⟩ := List.mem_map.1 hrow
    unfold planInsert at hplan
    dsimp only at hplan
    split_ifs at hplan
    exact valuesRow_congr (itemsOf_bound (checkAll_ok hplan items hitems))
  | query nout q =>
    rw [Source.rows] at hs
    split at hs <;> cases hs
    obtain ⟨items, -, rfl⟩ := List.mem_map.1 hrow
    unfold queryRow
    split_ifs
    · rfl
    refine valuesRow_congr (fun e he => ?_)
    obtain ⟨v, -, hv⟩ := List.mem_map.1 he
    cases hv
    rfl

theorem GivenRows.adds {rows : List (Db → Except Error (List (Option Bytes)))} (hg : GivenRows h fks tb rows db db')
    (hsame : ∀ row ∈ rows, ∀ d d', row d = row d') (d : Db) (hm : db.trees tb.rowsTree = some m) :
    ∃ gs m', rows.mapM (fun row => row d) = .ok gs ∧ gs.length = rows.length ∧ Adds tb gs m m' ∧
      db'.trees tb.rowsTree = some m' ∧ OtherRows tb db.trees db'.trees ∧ db'.catalog = db.catalog := by
  induction hg generalizing m with
  | nil db => exact ⟨[], m, rfl, rfl, .nil m, hm, OtherRows.refl tb _, rfl⟩
  | @cons row rows vals db db₁ db' hrow hgiven _ ih =>
    obtain ⟨m₀, k, filled, hfills, -, -, hins, hcat⟩ := hgiven
    have hm₀ := hins.rows
    rw [hm] at hm₀
    cases hm₀
    obtain ⟨gs, m', hgs, hlen, hadds, hnow, hothers, hcat'⟩ :=
      ih (fun r hr => hsame r (List.mem_cons_of_mem _ hr)) hins.now
    refine ⟨vals :: gs, m', ?_, by rw [List.length_cons, List.length_cons, hlen], .cons hfills hins.free hins.key hadds,
      hnow, hins.others.trans hothers, hcat'.trans hcat⟩
    rw [List.mapM_cons, hsame row (List.mem_cons_self ..) d db, hrow, hgs]
    rfl

/-! ## Rows changed -/

theorem collect_picks {s : Changing} (hm : db.trees tb.rowsTree = some m) : ∀ {keys : List Bytes} {cs : List RowChange},
    collect h tb s db keys = .ok cs → ∀ c, c ∈ cs ↔ c.key ∈ keys ∧ ∃ row v, m.get c.key = some row ∧
      rowDecode tb row = .ok v ∧ s.keep db v = .ok true ∧ setValues h tb s db v = .ok c.vals
  | [], cs, hc, c => by
    cases hc
    simp
  | key :: keys, cs, hc, c => by
    rw [collect] at hc
    split at hc
    · cases hc
    rename_i row hrow
    obtain ⟨-, m', hm', hg⟩ := rowGet_ok hrow
    rw [hm] at hm'
    cases hm'
    split at hc
    · cases hc
    rename_i v hv
    have hone : ∀ {row' v'}, m.get key = some row' → rowDecode tb row' = .ok v' → v' = v := by
      intro row' v' hr' hv'
      rw [hg] at hr'
      cases hr'
      exact Except.ok.inj (hv'.symm.trans hv)
    split at hc
    · cases hc
    · rename_i hkeep
      rw [collect_picks hm hc, List.mem_cons]
      refine ⟨fun hp => ⟨.inr hp.1, hp.2⟩, fun hp => ⟨hp.1.resolve_left (fun he => ?_), hp.2⟩⟩
      -- the row itself is one the WHERE does not keep
      obtain ⟨row', v', hr', hv', hk', -⟩ := hp.2
      rw [he] at hr'
      rw [hone hr' hv', hkeep] at hk'
      cases hk'
    · rename_i hkeep
      split at hc
      · cases hc
      rename_i vals hvals
      split at hc
      · cases hc
      rename_i cs' hrest
      cases hc
      rw [List.mem_cons, collect_picks hm hrest, List.mem_cons]
      constructor
      · rintro (rfl | hp)
        · exact ⟨.inl rfl, row, v, hg, hv, hkeep, hvals⟩
        · exact ⟨.inr hp.1, hp.2⟩
      · rintro ⟨he | hmem, row', v', hr', hv', hk', hvals'⟩
        · left
          rw [he] at hr'
          rw [hone hr' hv', hvals] at hvals'
          obtain ⟨ck, cv⟩ := c
          cases he
          cases hvals'
          rfl
        · exact .inr ⟨hmem, row', v', hr', hv', hk', hvals'⟩

theorem changes_picks {s : Changing} {cs : List RowChange} (hm : db.trees tb.rowsTree = some m)
    (hc : s.changes h tb db = .ok cs) (c : RowChange) : c ∈ cs ↔ s.Picks h tb db m c := by
  unfold Changing.changes at hc
  split at hc
  · cases hc
  rename_i keys hkeys
  rw [collect_picks hm hc]
  constructor
  · rintro ⟨hmem, row, v, hp⟩
    exact ⟨keys, row, v, hkeys, hmem, hp⟩
  · rintro ⟨keys', row, v, hkeys', hmem, hp⟩
    rw [hkeys] at hkeys'
    cases hkeys'
    exact ⟨hmem, row, v, hp⟩

theorem moveOf_new_iff {s : Changing} {c : RowChange} {k row : Bytes} :
    (s.moveOf tb m c).new = some (k, row) ↔ s.update = true ∧ s.NewRow tb m c k row := by
  constructor
  · intro hn
    have hu := moveOf_update hn
    refine ⟨hu, ?_⟩
    rw [Changing.moveOf] at hn
    dsimp only at hn
    rw [if_pos hu] at hn
    split at hn
    · cases hn
    rename_i v hv
    split at hn <;> cases hn
    rename_i hk
    exact ⟨v, hv, hk, rfl⟩
  · rintro ⟨hu, v, hv, hk, rfl⟩
    exact moveOf_new hu hv hk

theorem Changed.means {s : Changing} {cs : List RowChange} {name : Bytes} (hm : db.trees tb.rowsTree = some m)
    (hch : Changed h fks tb s db db' m cs m') : (Stmt.change name s).Means h tb db m cs.length m' := by
  have hkeys := moveOf_key s tb m cs
  refine ⟨cs, changes_picks hm hch.collected, hch.once, rfl, fun hu c hc => ?_, fun k row => ?_⟩
  · obtain ⟨e, he⟩ := Option.isSome_iff_exists.1 ((hch.written c hc).1 hu)
    exact ⟨e.1, e.2, (moveOf_new_iff.1 he).2⟩
  · have hnd : ((cs.map (s.moveOf tb m)).map Move.key).Nodup := by rw [hkeys]; exact hch.once
    have hthere : ∀ mv ∈ cs.map (s.moveOf tb m), (m.get mv.key).isSome := by
      intro mv hmv
      obtain ⟨c, hc, rfl⟩ := List.mem_map.1 hmv
      exact hch.there c hc
    rw [hch.moved.get_eq_some hnd hthere, hkeys]
    refine or_congr Iff.rfl ?_
    constructor
    · rintro ⟨mv, hmv, hn⟩
      obtain ⟨c, hc, rfl⟩ := List.mem_map.1 hmv
      exact ⟨moveOf_update hn, c, hc, (moveOf_new_iff.1 hn).2⟩
    · rintro ⟨hu, c, hc, hn⟩
      exact ⟨_, List.mem_map_of_mem hc, moveOf_new_iff.2 ⟨hu, hn⟩⟩

/-- **A data change that succeeds reads only the state before it.** -/
theorem stmt_reads_before {stmt : Stmt} {n : Nat} (hr : (stmt.run h fks db).answer = .ok n)
    (hopen : tableOpen db stmt.table = .ok tb) (hm : db.trees tb.rowsTree = some m) :
    ∃ m', stmt.Means h tb db m n m' ∧ (stmt.run h fks db).db.trees tb.rowsTree = some m' ∧
      OtherRows tb db.trees (stmt.run h fks db).db.trees ∧ (stmt.run h fks db).db.catalog = db.catalog := by
  cases stmt with
  | insert name targets source random =>
    obtain ⟨tb', hopen', hplan, hrun⟩ := Stmt.insert_steps hr
    cases hopen'.symm.trans hopen
    rw [hrun] at hr ⊢
    obtain ⟨rows, hrows, hn, hgiven⟩ := runInsert_ok hr
    obtain ⟨gs, m', hgs, hlen, hadds, hnow, hothers, hcat⟩ := hgiven.adds (sourceRows_before hplan hrows) db hm
    refine ⟨m', ⟨gs, ?_, hn.trans hlen.symm, hadds⟩, hnow, hothers, hcat⟩
    rw [Source.given, hrows]
    exact hgs
  | change name s =>
    obtain ⟨tb', hopen', hrun⟩ := Stmt.change_steps hr
    cases hopen'.symm.trans hopen
    rw [hrun] at hr ⊢
    obtain ⟨cs, m', rfl, hch⟩ := runUpdateDelete_ok hm hr
    exact ⟨m', hch.means hm, hch.now, hch.others, hch.catalog⟩

/-- **A walk that meets every row leaves it to the WHERE** which rows are changed, removed or left. -/
theorem change_every_row {name : Bytes} {s : Changing} {n : Nat}
    (hr : ((Stmt.change name s).run h fks db).answer = .ok n)
    (hopen : tableOpen db name = .ok tb) (hm : db.trees tb.rowsTree = some m)
    (hevery : ∀ keys, s.walk.keys db = .ok keys → ∀ k, (m.get k).isSome → k ∈ keys) :
    ∃ (cs : List RowChange) (m' : Tree), n = cs.length ∧
      (∀ c, c ∈ cs ↔ ∃ row v, m.get c.key = some row ∧ rowDecode tb row = .ok v ∧ s.keep db v = .ok true ∧
        setValues h tb s db v = .ok c.vals) ∧
      ((Stmt.change name s).run h fks db).db.trees tb.rowsTree = some m' ∧
      ∀ k row, m'.get k = some row ↔
        (k ∉ cs.map RowChange.key ∧ m.get k = some row) ∨ s.update = true ∧ ∃ c ∈ cs, s.NewRow tb m c k row := by
  obtain ⟨tb', hopen', hrun⟩ := Stmt.change_steps hr
  cases hopen'.symm.trans hopen
  rw [hrun] at hr ⊢
  obtain ⟨cs, m', rfl, hch⟩ := runUpdateDelete_ok hm hr
  have hmeans : (Stmt.change name s).Means h tb db m cs.length m' := hch.means hm
  obtain ⟨cs', hpicks, -, hn, -, hrows⟩ := hmeans
  refine ⟨cs', m', hn, fun c => (hpicks c).trans ?_, hch.now, hrows⟩
  constructor
  · rintro ⟨-, row, v, -, -, hp⟩
    exact ⟨row, v, hp⟩
  · rintro ⟨row, v, hrow, hp⟩
    have hchanges := hch.collected
    unfold Changing.changes at hchanges
    split at hchanges
    · cases hchanges
    · rename_i keys hkeys
      exact ⟨keys, row, v, hkeys, hevery keys hkeys c.key (by rw [hrow]; rfl), hrow, hp⟩

end

/-! ## A table that reads itself -/

def idOf (v : Vals) : Nat := (readU64 (v.getD 0 [])).getD 0

def staffRows (db : Db) : Except Error (List Vals) :=
  ((db.trees staff.rowsTree).getD .empty).entries.mapM (fun e => rowDecode staff e.2)

/-- `INSERT INTO staff SELECT id + 2, id FROM staff`. -/
def hireUnder : Stmt :=
  .insert staff.name [0, 1]
    (.query 2 (fun db => (staffRows db).map
      (fun rows => rows.map (fun v => [hostNumber (idOf v + 2), hostNumber (idOf v)]))))
    (fun _ _ _ => .ok hostAbsent)

def wholeTable (tb : Table) : Walk where
  keys db := .ok (((db.trees tb.rowsTree).getD .empty).entries.map (·.1))
  once db ks h := by
    cases h
    exact List.pairwise_map.2 (((db.trees tb.rowsTree).getD .empty).asc.imp ne_of_lt)

/-- `UPDATE staff SET id = id + (SELECT count(*) FROM staff)`. -/
def renumberAll : Stmt :=
  .change staff.name ⟨wholeTable staff, fun _ _ => .ok true, true, [0],
    [some (fun db v => (staffRows db).map (fun rows => hostNumber (idOf v + rows.length)))]⟩

def hiredRows : Tree := (staffHired.trees staff.rowsTree).getD .empty

/-- Of two rows: each is hired one under it, and those are not read; or each moves on by two, and is met once. -/
theorem stmt_reads_before_hired : hiredRows.entries.length = 2 ∧
    (∃ m', hireUnder.Means plainHost staff staffHired hiredRows 2 m' ∧
      (hireUnder.run plainHost [staffBoss] staffHired).db.trees staff.rowsTree = some m' ∧
      OtherRows staff staffHired.trees (hireUnder.run plainHost [staffBoss] staffHired).db.trees ∧
      (hireUnder.run plainHost [staffBoss] staffHired).db.catalog = staffHired.catalog) ∧
    ∃ m', renumberAll.Means plainHost staff staffHired hiredRows 2 m' ∧
      (renumberAll.run plainHost [] staffHired).db.trees staff.rowsTree = some m' ∧
      OtherRows staff staffHired.trees (renumberAll.run plainHost [] staffHired).db.trees ∧
      (renumberAll.run plainHost [] staffHired).db.catalog = staffHired.catalog :=
  ⟨by rfl, stmt_reads_before (by rfl) (by rfl) (by rfl), stmt_reads_before (by rfl) (by rfl) (by rfl)⟩

end Gsql
end Gbasic
