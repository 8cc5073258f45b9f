import Gbasic.SqlRows
/-!
# SqlMoves — what a statement does to the rows

An INSERT puts the rows it was given, filled where a column draws or counts its values (`insertRow_ok`).  An UPDATE or
DELETE moves or takes away the rows it collected, each as it was when the statement began: a row written earlier in the
statement is never one that a later change is for (`runUpdateDelete_ok`).
-/
namespace Gbasic
namespace Gsql

open Engine (Trees Tree Bytes)
open Key (Readable SER_NUMBER)
open List (mem_cons length_set mem_map mem_cons_of_mem length_cons mem_cons_self)

variable {targets : List Nat} {n : Nat}

def Readables (vals : List (Option Bytes)) : Prop := ∀ x, some x ∈ vals → Readable ⟨false, false⟩ x

structure Fills (tb : Table) (vals filled : List (Option Bytes)) : Prop where
  length : filled.length = vals.length
  readable : Readables filled
  given : ∀ i x, vals.getD i none = some x → filled.getD i none = some x
  left : ∀ i, vals.getD i none = none → (tb.col i).gen = .none → filled.getD i none = none

/-! ## Values given -/

section
variable {h : Host} {fks : List FkRec} {tb : Table} {t t' : Trees} {db db' : Db} {m m' : Tree}
  {vals vs : List (Option Bytes)}

theorem giveAll_readable {items : List (Option Expr)} (hg : giveAll h tb targets items db = .ok vs) : Readables vs := by
  have hone : ∀ p y, giveItem h tb db p = .ok y → ∀ x, y = some x → Readable ⟨false, false⟩ x := by
    intro p y hy x hx
    unfold giveItem at hy
    split at hy
    · cases hy
      cases hx
    split at hy
    · cases hy
    split at hy
    · cases hy
    rename_i v _
    cases hy
    cases hx
    exact v.letters
  unfold giveAll at hg
  intro x hx
  have hall := mapM_ok hg
  clear hg
  generalize targets.zip items = l at hall
  induction hall with
  | nil => cases hx
  | cons hp _ ih =>
    rcases mem_cons.1 hx with he | hx
    · exact hone _ _ hp x he.symm
    · exact ih hx

theorem length_foldl_set : ∀ (ps : List (Nat × Option Bytes)) (l : List (Option Bytes)),
    (ps.foldl (fun l p => l.set p.1 p.2) l).length = l.length
  | [], _ => rfl
  | p :: ps, l => by rw [List.foldl_cons, length_foldl_set ps, length_set]

theorem length_placed (n : Nat) (pos : List Nat) (vals : List (Option Bytes)) : (placed n pos vals).length = n := by
  rw [placed, length_foldl_set, List.length_replicate]

theorem mem_foldl_set {x : Bytes} : ∀ (ps : List (Nat × Option Bytes)) (l : List (Option Bytes)),
    some x ∈ ps.foldl (fun l p => l.set p.1 p.2) l → some x ∈ l ∨ some x ∈ ps.map (·.2)
  | [], _, hx => .inl hx
  | p :: ps, l, hx => by
    rw [List.foldl_cons] at hx
    rw [List.map_cons, mem_cons]
    rcases mem_foldl_set ps _ hx with hx | hx
    · rcases List.mem_or_eq_of_mem_set hx with hx | hx
      · exact .inl hx
      · exact .inr (.inl hx)
    · exact .inr (.inr hx)

theorem readables_placed {pos : List Nat} (hv : Readables vals) : Readables (placed n pos vals) := by
  intro x hx
  rcases mem_foldl_set _ _ hx with hx | hx
  · exact absurd (List.eq_of_mem_replicate hx) (by simp)
  · obtain ⟨p, hp, he⟩ := mem_map.1 hx
    exact hv x (he ▸ (List.of_mem_zip hp).2)

theorem valuesRow_ok {row : List (Option Expr)} (hv : valuesRow h tb targets row db = .ok vals) :
    vals.length = tb.ncols ∧ Readables vals := by
  unfold valuesRow at hv
  split at hv
  · cases hv
  rename_i hg
  cases hv
  exact ⟨length_placed _ _ _, readables_placed (giveAll_readable hg)⟩

theorem queryRow_ok {items : List HostValue} (hv : queryRow h tb targets items db = .ok vals) :
    vals.length = tb.ncols ∧ Readables vals := by
  unfold queryRow at hv
  split_ifs at hv
  exact valuesRow_ok hv

theorem missing_readable (hfit : TableFit tb) (i : Nat) : Readable ⟨false, false⟩ (tb.col i).missing := by
  by_cases hi : i < tb.cols.length
  · rw [Table.col, List.getD_eq_getElem _ _ hi]
    exact hfit.missing _ (List.getElem_mem hi)
  · rw [Table.col, List.getD_eq_default _ _ (not_lt.1 hi)]
    intro htag
    exact absurd htag (by decide)

theorem given_ok (hfit : TableFit tb) (s : Changing) {c : RowChange} (hc : Readables c.vals) :
    (s.given tb c).length = tb.ncols ∧ Readables (s.given tb c) := by
  refine ⟨length_placed _ _ _, readables_placed (fun x hx => ?_)⟩
  obtain ⟨p, hp, he⟩ := mem_map.1 hx
  have hpx := Option.some.inj he
  rcases hv : p.2 with _ | y <;> rw [hv] at hpx
  · exact hpx ▸ missing_readable hfit p.1
  · exact hpx ▸ hc y (hv ▸ (List.of_mem_zip hp).2)

/-! ## Values generated -/

theorem genRandom_ok {draw : Nat → Except Error HostValue} : ∀ {cols : List Column} {i : Nat}
    {vals vs : List (Option Bytes)}, genRandom draw i cols vals = .ok vs → Readables vals →
    vs.length = vals.length ∧ Readables vs ∧ ∀ j, (vals.getD j none).isSome ∨ (cols.getD j default).gen ≠ .random →
      vs.getD j none = vals.getD j none
  | [], _, vals, vs, hg, hv => by
    unfold genRandom at hg
    cases hg
    exact ⟨rfl, hv, fun _ _ => rfl⟩
  | _ :: _, _, [], vs, hg, hv => by
    unfold genRandom at hg
    cases hg
    exact ⟨rfl, hv, fun _ _ => rfl⟩
  | c :: cols, i, a :: vals, vs, hg, hv => by
    have htail : Readables vals := fun x hx => hv x (mem_cons_of_mem _ hx)
    -- what is written first, before the rest
    have hcons : ∀ (y : Option Bytes) (ws : List (Option Bytes)), genRandom draw (i + 1) cols vals = .ok ws →
        (∀ x, y = some x → Readable ⟨false, false⟩ x) → (a.isSome ∨ c.gen ≠ .random → y = a) →
        (y :: ws).length = (a :: vals).length ∧ Readables (y :: ws) ∧
          ∀ j, ((a :: vals).getD j none).isSome ∨ ((c :: cols).getD j default).gen ≠ .random →
            (y :: ws).getD j none = (a :: vals).getD j none := by
      intro y ws hws hy hya
      obtain ⟨hlen, hread, hsame⟩ := genRandom_ok hws htail
      refine ⟨by rw [length_cons, length_cons, hlen], fun x hx => ?_, fun j hj => ?_⟩
      · rcases mem_cons.1 hx with he | hx
        · exact hy x he.symm
        · exact hread x hx
      · cases j with
        | zero => exact hya hj
        | succ j => exact hsame j hj
    rw [genRandom] at hg
    split_ifs at hg with hdraw
    · split at hg
      · cases hg
      rename_i b hb
      split at hg
      · cases hg
      rename_i ws hws
      cases hg
      refine hcons _ ws hws (fun x hx => Option.some.inj hx ▸ b.letters) (fun hj => ?_)
      rcases hj with hj | hj
      · rw [hdraw.2] at hj
        cases hj
      · exact absurd hdraw.1 hj
    · split at hg
      · cases hg
      rename_i ws hws
      cases hg
      exact hcons _ ws hws (fun x hx => hv x (hx ▸ mem_cons_self ..)) (fun _ => rfl)

theorem rowValues_set {c : Nat} (x : Bytes) (hc : c < vals.length) :
    rowValues tb (vals.set c (some x)) = (rowValues tb vals).set c x := by
  apply List.ext_getElem?
  intro i
  rw [rowValues, rowValues, List.getElem?_mapIdx, List.getElem?_set]
  by_cases hi : c = i
  · subst hi
    rw [if_pos rfl, List.length_mapIdx]
    split_ifs with hlt
    · rw [List.getElem?_eq_getElem hlt, Option.map_some, List.getD_eq_getElem?_getD, List.getElem?_set_self hc]
      rfl
    · rw [List.getElem?_eq_none (not_lt.1 hlt)]
      rfl
  · rw [if_neg hi, List.getElem?_mapIdx, List.getD_eq_getElem?_getD, List.getElem?_set_ne hi,
      ← List.getD_eq_getElem?_getD]

theorem readable_putExact (n : Nat) : Readable ⟨false, false⟩ (putExact n) := by
  intro htag
  exact absurd htag (by decide : (byte SER_NUMBER).val ≠ Key.SER_MONEY)

theorem genSerials_ok : ∀ {cs : List Nat} {vals : List (Option Bytes)} {whole : Vals}
    {r : List (Option Bytes) × Vals × List Counter},
    genSerials h t tb cs vals whole = .ok r → (∀ c ∈ cs, c < tb.ncols ∧ (tb.col c).gen = .serial) →
    vals.length = tb.ncols → Readables vals → whole = rowValues tb vals →
    r.1.length = vals.length ∧ Readables r.1 ∧ r.2.1 = rowValues tb r.1 ∧
      ∀ j, (vals.getD j none).isSome ∨ (tb.col j).gen ≠ .serial → r.1.getD j none = vals.getD j none
  | [], vals, whole, r, hg, _, _, hread, hw => by
    cases hg
    exact ⟨rfl, hread, hw, fun _ _ => rfl⟩
  | c :: cs, vals, whole, r, hg, hcs, hlen, hread, hw => by
    have hcs' : ∀ d ∈ cs, d < tb.ncols ∧ (tb.col d).gen = .serial := fun d hd => hcs d (mem_cons_of_mem _ hd)
    rw [genSerials] at hg
    split at hg
    · cases hg
    split at hg
    · split at hg
      · cases hg
      split at hg
      · cases hg
      rename_i vs w ns hrest
      cases hg
      have ih := genSerials_ok hrest hcs' hlen hread hw
      exact ih
    · rename_i hnone
      split at hg
      · cases hg
      rename_i hw' _
      split_ifs at hg
      split at hg
      · cases hg
      rename_i vs w ns hrest
      cases hg
      obtain ⟨hc, hgen⟩ := hcs c (mem_cons_self ..)
      have hset : Readables (vals.set c (some (putExact (hw' + 1)))) := by
        intro x hx
        rcases List.mem_or_eq_of_mem_set hx with hx | hx
        · exact hread x hx
        · exact Option.some.inj hx ▸ readable_putExact _
      obtain ⟨hlen', hread', hwhole, hsame⟩ := genSerials_ok hrest hcs' (by rw [length_set]; exact hlen) hset
        (by rw [hw, rowValues_set _ (hlen ▸ hc)])
      refine ⟨by rw [hlen', length_set], hread', hwhole, fun j hj => ?_⟩
      -- the column numbered is neither given nor another kind
      have hne : c ≠ j := by
        rintro rfl
        rcases hj with hj | hj
        · rw [hnone] at hj
          cases hj
        · exact hj hgen
      have hget : (vals.set c (some (putExact (hw' + 1)))).getD j none = vals.getD j none := by
        rw [List.getD_eq_getElem?_getD, List.getElem?_set_ne hne, ← List.getD_eq_getElem?_getD]
      rw [hsame j (by rw [hget]; exact hj), hget]

theorem genFill_ok {draw : Nat → Except Error HostValue} {filled : List (Option Bytes)} {whole : Vals}
    {ns : List Counter}
    (hg : genFill h t tb vals draw = .ok (filled, whole, ns)) (hlen : vals.length = tb.ncols) (hread : Readables vals) :
    Fills tb vals filled ∧ whole = rowValues tb filled := by
  unfold genFill at hg
  split at hg
  · cases hg
  rename_i drawn hdrawn
  obtain ⟨hlen₁, hread₁, hsame₁⟩ := genRandom_ok hdrawn hread
  have hserials : ∀ c ∈ tb.serials, c < tb.ncols ∧ (tb.col c).gen = .serial := by
    intro c hc
    obtain ⟨hmem, hgen⟩ := List.mem_filter.1 hc
    exact ⟨List.mem_range.1 hmem, by simpa using hgen⟩
  obtain ⟨hlen₂, hread₂, hwhole, hsame₂⟩ := genSerials_ok hg hserials (hlen₁.trans hlen) hread₁ rfl
  refine ⟨⟨hlen₂.trans hlen₁, hread₂, fun i x hx => ?_, fun i hi hgen => ?_⟩, hwhole⟩
  · have h₁ := hsame₁ i (.inl (by rw [hx]; rfl))
    rw [hsame₂ i (.inl (by rw [h₁, hx]; rfl)), h₁, hx]
  · have h₁ := hsame₁ i (.inr (show (tb.col i).gen ≠ _ by rw [hgen]; simp))
    rw [hsame₂ i (.inr (by rw [hgen]; simp)), h₁, hi]

/-! ## Counters -/

theorem inTurn_other {ε : Type} {f : Trees → ε → Except Error Unit × Trees} {n : Bytes}
    (hf : ∀ t a, (f t a).2 n = t n) : ∀ (as : List ε) (t : Trees), (inTurn f t as).2 n = t n
  | [], _ => rfl
  | a :: as, t => by
    rw [inTurn]
    have ha := hf t a
    split
    · rename_i he
      rw [he] at ha
      exact ha
    · rename_i he
      rw [he] at ha
      rw [inTurn_other hf as]
      exact ha

theorem serialSet_other {c hw : Nat} {scope n : Bytes} (hn : n ≠ tb.serialTree) :
    (serialSet t tb c scope hw).2 n = t n := by
  unfold serialSet
  split
  · rfl
  rename_i k _
  by_cases hr : Engine.Room t tb.serialTree k
  · obtain ⟨i, hi⟩ := Option.isSome_iff_exists.1 hr.2
    rw [Engine.put_room tb.serialTree_short hr.1 hi]
    exact Engine.set_of_ne t hn _
  · obtain ⟨rc, hrc, hput⟩ := Engine.put_refused tb.serialTree_short hr (lePut 8 hw)
    rw [hput]
    cases rc <;> rfl

theorem genCommit_rows (tb r : Table) (t : Trees) (ns : List Counter) :
    (genCommit tb t ns).2 r.rowsTree = t r.rowsTree := by
  refine inTurn_other (fun t a => ?_) ns t
  split_ifs
  · rfl
  · exact serialSet_other (serialTree_ne_rowsTree tb r).symm

theorem bumpsApply_rows (tb r : Table) (t : Trees) (ns : List Counter) :
    (bumpsApply tb t ns).2 r.rowsTree = t r.rowsTree := by
  refine inTurn_other (fun t a => ?_) ns t
  split
  · rfl
  split_ifs
  · exact serialSet_other (serialTree_ne_rowsTree tb r).symm
  · rfl

/-! ## A row inserted -/

theorem Inserted.rowsSame {m : Tree} {k : Bytes} {v : Vals} {t'' : Trees} (h : Inserted tb t t' m k v)
    (hsame : ∀ r : Table, t'' r.rowsTree = t' r.rowsTree) : Inserted tb t t'' m k v where
  rows := h.rows
  free := h.free
  whole := h.whole
  key := h.key
  now := (hsame tb).trans h.now
  others r hr := (hsame r).trans (h.others r hr)

def GivenRow (h : Host) (fks : List FkRec) (tb : Table) (vals : List (Option Bytes)) (db db' : Db) : Prop :=
  ∃ m k filled, Fills tb vals filled ∧ rowChecks h fks tb db (rowValues tb filled) = .ok () ∧
    (TableFit tb → InColumns tb (rowValues tb filled)) ∧
    Inserted tb db.trees db'.trees m k (rowValues tb filled) ∧ db'.catalog = db.catalog

theorem insertRow_attempt {random : Nat → Nat → Except Error HostValue} (hlen : vals.length = tb.ncols)
    (hread : Readables vals) (hi : insertRow h fks tb vals random n db = (.ok (), db')) :
    GivenRow h fks tb vals db db' ∨ ∃ n', n = n' + 1 ∧ insertRow h fks tb vals random n' db = (.ok (), db') := by
  unfold insertRow at hi
  split at hi
  · cases hi
  rename_i filled whole ns hfill
  split at hi
  · cases hi
  rename_i hchecks
  split at hi
  · rename_i k t hins
    left
    obtain ⟨hfills, rfl⟩ := genFill_ok hfill hlen hread
    obtain ⟨m, v, hres, hdone⟩ := rowInsert_ok hins
    have hv : v = rowValues tb filled := resolveFrom_none hres
    have hcols : TableFit tb → InColumns tb v := fun hfit =>
      resolveFrom_readable hres hfit.missing hfills.readable (fun o ho => by cases ho)
    subst hv
    rw [← (Prod.mk.inj hi).2]
    exact ⟨m, k, filled, hfills, hchecks, hcols, hdone.rowsSame (fun r => genCommit_rows tb r t ns), rfl⟩
  · rename_i e t hins
    right
    dsimp only at hi
    split_ifs at hi with hdup
    · split at hi
      · cases hi
      rename_i n'
      have ht := rowInsert_duplicate hins hdup.1
      subst ht
      exact ⟨n', rfl, hi⟩
    · cases hi

/-- **A row inserted is the values given, filled and checked**, whatever was drawn again. -/
theorem insertRow_ok {random : Nat → Nat → Except Error HostValue} (hlen : vals.length = tb.ncols)
    (hread : Readables vals) (hi : insertRow h fks tb vals random n db = (.ok (), db')) :
    GivenRow h fks tb vals db db' := by
  induction n with
  | zero =>
    rcases insertRow_attempt hlen hread hi with hdone | ⟨n', hn, -⟩
    · exact hdone
    · cases hn
  | succ n ih =>
    rcases insertRow_attempt hlen hread hi with hdone | ⟨n', hn, hrest⟩
    · exact hdone
    · cases hn
      exact ih hrest

/-- The rows of an INSERT as they will be evaluated; a query's are read already. -/
def Source.rows (h : Host) (tb : Table) (targets : List Nat) (db : Db) :
    Source → Except Error (List (Db → Except Error (List (Option Bytes))))
  | .values v => .ok (v.rows.map (fun r => valuesRow h tb targets (itemsOf r)))
  | .query _ q =>
    match q db with
    | .error e => .error e
    | .ok rows => .ok (rows.map (queryRow h tb targets))

inductive GivenRows (h : Host) (fks : List FkRec) (tb : Table) :
    List (Db → Except Error (List (Option Bytes))) → Db → Db → Prop where
  | nil (db : Db) : GivenRows h fks tb [] db db
  | cons {row : Db → Except Error (List (Option Bytes))} {rows : List (Db → Except Error (List (Option Bytes)))}
      {vals : List (Option Bytes)} {db db₁ db' : Db} (hrow : row db = .ok vals) (hgiven : GivenRow h fks tb vals db db₁)
      (hrest : GivenRows h fks tb rows db₁ db') : GivenRows h fks tb (row :: rows) db db'

theorem sourceRows_ok {source : Source} {rows : List (Db → Except Error (List (Option Bytes)))}
    (hs : source.rows h tb targets db = .ok rows) :
    ∀ row ∈ rows, ∀ db vals, row db = .ok vals → vals.length = tb.ncols ∧ Readables vals := by
  intro row hrow db' vals hv
  cases source with
  | values v =>
    cases hs
    obtain ⟨items, -, rfl⟩ := mem_map.1 hrow
    exact valuesRow_ok hv
  | query nout q =>
    rw [Source.rows] at hs
    split at hs <;> cases hs
    obtain ⟨items, -, rfl⟩ := mem_map.1 hrow
    exact queryRow_ok hv

theorem insertRows_ok {random : Nat → Nat → Nat → Except Error HostValue} {source : String} {many : Bool} :
    ∀ {rows : List (Db → Except Error (List (Option Bytes)))} {done n : Nat} {db : Db},
    (∀ row ∈ rows, ∀ db vals, row db = .ok vals → vals.length = tb.ncols ∧ Readables vals) →
    (insertRows h fks tb random source many done rows db).answer = .ok n →
    n = done + rows.length ∧ GivenRows h fks tb rows db (insertRows h fks tb random source many done rows db).db
  | [], done, n, db, _, hr => ⟨(Except.ok.inj hr).symm, .nil db⟩
  | row :: rows, done, n, db, hrows, hr => by
    rw [insertRows] at hr ⊢
    rcases hrow : row db with e | vals <;> rw [hrow] at hr
    · cases hr
    dsimp only at hr ⊢
    obtain ⟨hlen, hread⟩ := hrows row (mem_cons_self ..) db vals hrow
    rcases hins : insertRow h fks tb vals (random done) (GEN_DRAWS - 1) db with ⟨_ | ⟨⟩, db₁⟩ <;> rw [hins] at hr
    · cases hr
    dsimp only at hr ⊢
    obtain ⟨hn, hrest⟩ := insertRows_ok (fun r hr => hrows r (mem_cons_of_mem _ hr)) hr
    exact ⟨by rw [hn, length_cons]; omega, .cons hrow (insertRow_ok hlen hread hins) hrest⟩

/-- **An INSERT gives its rows one after another**; a query's rows were all read before. -/
theorem runInsert_ok {source : Source} {random : Nat → Nat → Nat → Except Error HostValue}
    (hr : (runInsert h fks tb targets source random db).answer = .ok n) :
    ∃ rows, source.rows h tb targets db = .ok rows ∧ n = rows.length ∧
      GivenRows h fks tb rows db (runInsert h fks tb targets source random db).db := by
  cases source with
  | values v =>
    have hrows : (Source.values v).rows h tb targets db =
        .ok (v.rows.map (fun r => valuesRow h tb targets (itemsOf r))) := rfl
    obtain ⟨hn, hgiven⟩ := insertRows_ok (sourceRows_ok hrows) hr
    exact ⟨_, hrows, by rw [hn, Nat.zero_add], hgiven⟩
  | query nout q =>
    unfold runInsert at hr ⊢
    dsimp only at hr ⊢
    rcases hq : q db with e | rows <;> rw [hq] at hr
    · cases hr
    have hrows : (Source.query nout q).rows h tb targets db = .ok (rows.map (queryRow h tb targets)) := by
      rw [Source.rows, hq]
    obtain ⟨hn, hgiven⟩ := insertRows_ok (sourceRows_ok hrows) hr
    exact ⟨_, hrows, by rw [hn, Nat.zero_add], hgiven⟩

/-! ## Rows collected, then moved -/

def Changing.becomes (s : Changing) (tb : Table) (m : Tree) (c : RowChange) : Option Vals :=
  match m.get c.key with
  | none => none
  | some row =>
    match rowDecode tb row with
    | .error _ => none
    | .ok old => some (s.newVals tb c old)

def keyAfter (tb : Table) (rowkey : Bytes) (v : Vals) : Except Error Bytes :=
  if tb.key = [] then .ok rowkey else primaryKey tb v

def Changing.moveOf (s : Changing) (tb : Table) (m : Tree) (c : RowChange) : Move Bytes Bytes :=
  ⟨c.key,
    if s.update then
      match s.becomes tb m c with
      | none => none
      | some v =>
        match keyAfter tb c.key v with
        | .error _ => none
        | .ok k => some (k, rowEncode tb v)
    else none⟩

theorem moveOf_key (s : Changing) (tb : Table) (m : Tree) (cs : List RowChange) :
    (cs.map (s.moveOf tb m)).map Move.key = cs.map RowChange.key := by
  rw [List.map_map]
  rfl

/-- What a change has written: a row of the new values under their key, held where the rows were. -/
def Changing.Writes (s : Changing) (tb : Table) (m : Tree) (c : RowChange) : Prop :=
  ∀ k row, (s.moveOf tb m c).new = some (k, row) → ∃ v, s.becomes tb m c = some v ∧ row = rowEncode tb v ∧
    keyAfter tb c.key v = .ok k ∧ (TableFit tb → RowsHeld tb m → RowHeld tb k row (v.map stored))

/-- A change moves its row as it was when the statement began. -/
theorem applyChange_ok {s : Changing} {c : RowChange} {m₀ : Tree} (hread : Readables c.vals)
    (hm : t tb.rowsTree = some m) (hrow : m.get c.key = m₀.get c.key) (ha : applyChange tb s t c = (.ok (), t')) :
    (s.moveOf tb m₀ c).Fits m ∧ t' tb.rowsTree = some ((s.moveOf tb m₀ c).apply m) ∧ OtherRows tb t t' ∧
      (s.update = true → (s.moveOf tb m₀ c).new.isSome) ∧ s.Writes tb m₀ c := by
  unfold applyChange at ha
  by_cases hu : s.update = true
  · rw [if_pos hu] at ha
    split at ha <;> cases ha
    rename_i k hup
    obtain ⟨m', oldrow, old, v, hres, hdone⟩ := rowUpdate_ok hup
    have hmm := hdone.rows
    rw [hm] at hmm
    cases hmm
    have hthere := hdone.there
    rw [hrow] at hthere
    have hglen : (s.given tb c).length = tb.ncols := length_placed _ _ _
    have hv : v = s.newVals tb c old := resolveFrom_some hres hglen (rowDecode_length hdone.decoded)
    have hbecomes : s.becomes tb m₀ c = some v := by
      rw [Changing.becomes, hthere]
      dsimp only
      rw [hdone.decoded, hv]
    have hnew : (s.moveOf tb m₀ c).new = some (k, rowEncode tb v) := by
      rw [Changing.moveOf]
      dsimp only
      rw [if_pos hu, hbecomes]
      dsimp only
      rw [keyAfter, hdone.key]
    have hheldNew : TableFit tb → RowsHeld tb m₀ → RowHeld tb k (rowEncode tb v) (v.map stored) := by
      intro hfit hheld
      obtain ⟨ov, hov⟩ := hheld _ _ hthere
      have hoo : ov = old := Except.ok.inj (hov.decoded.symm.trans hdone.decoded)
      subst hoo
      have hkey : KeyOf tb v k := by
        have hk := hdone.key
        have hold := hov.key
        unfold KeyOf at hold ⊢
        split_ifs at hk hold ⊢
        · cases hk
          exact hold
        · exact hk
      have hcols := resolveFrom_readable hres hfit.missing (given_ok hfit s hread).2 (fun o ho => by
        cases ho
        exact hov.columns.readable hov.whole.length)
      exact rowHeld_encode hfit hdone.whole hkey hcols
    refine ⟨⟨by rw [Changing.moveOf]; dsimp only; rw [hdone.there]; rfl, fun k' row hn => ?_⟩, ?_, hdone.others,
      fun _ => by rw [hnew]; rfl, fun k' row hn => ?_⟩
    · rw [hnew] at hn
      cases hn
      exact hdone.free
    · rw [hdone.now, Move.apply, hnew]
      rfl
    · rw [hnew] at hn
      cases hn
      exact ⟨v, hbecomes, rfl, hdone.key, hheldNew⟩
  · rw [if_neg hu] at ha
    obtain ⟨m', hm', hthere, hnow, hothers⟩ := rowDelete_rows ha
    rw [hm] at hm'
    cases hm'
    have hnew : (s.moveOf tb m₀ c).new = none := by
      rw [Changing.moveOf]
      dsimp only
      rw [if_neg hu]
    refine ⟨⟨hthere, fun k' row hn => ?_⟩, ?_, hothers, fun h => absurd h hu, fun k' row hn => ?_⟩
    · rw [hnew] at hn
      cases hn
    · rw [hnow, Move.apply, hnew]
      rfl
    · rw [hnew] at hn
      cases hn

/-- **Changes in turn are moves of the rows as they were**: the rows still to change are as the statement found them. -/
theorem applyChanges_moved {s : Changing} {m₀ : Tree} :
    ∀ {cs : List RowChange} {done n : Nat} {partWay : Bool} {t : Trees} {m : Tree}, (∀ c ∈ cs, Readables c.vals) →
    (cs.map RowChange.key).Nodup → t tb.rowsTree = some m →
    (∀ c ∈ cs, (m₀.get c.key).isSome) → (∀ c ∈ cs, m.get c.key = m₀.get c.key) → applyChanges tb s done t cs =
    (.ok n, partWay, t') →
    ∃ m', Moved m (cs.map (s.moveOf tb m₀)) m' ∧ t' tb.rowsTree = some m' ∧ OtherRows tb t t' ∧ n = done + cs.length ∧
      ∀ c ∈ cs, (s.update = true → (s.moveOf tb m₀ c).new.isSome) ∧ s.Writes tb m₀ c
  | [], done, n, partWay, t, m, _, _, hm, _, _, ha => by
    cases ha
    exact ⟨m, .nil m, hm, OtherRows.refl tb _, rfl, fun c hc => by cases hc⟩
  | c :: cs, done, n, partWay, t, m, hread, hnd, hm, hin, hrow, ha => by
    rw [applyChanges] at ha
    split at ha
    · cases ha
    rename_i t₁ hone
    obtain ⟨hfits, hnow, hothers, hwritten⟩ :=
      applyChange_ok (hread c (mem_cons_self ..)) hm (hrow c (mem_cons_self ..)) hone
    rw [List.map_cons, List.nodup_cons] at hnd
    have hlater : ∀ d ∈ cs, ((s.moveOf tb m₀ c).apply m).get d.key = m₀.get d.key := by
      intro d hd
      have hd' := mem_cons_of_mem c hd
      rw [← hrow d hd']
      refine hfits.other (fun he => hnd.1 (mem_map.2 ⟨d, hd, he⟩)) ?_
      rw [hrow d hd']
      exact hin d hd'
    obtain ⟨m', hmoved, hnow', hothers', hn, hwritten'⟩ := applyChanges_moved
      (fun d hd => hread d (mem_cons_of_mem _ hd)) hnd.2 hnow (fun d hd => hin d (mem_cons_of_mem _ hd)) hlater ha
    refine ⟨m', .cons hfits hmoved, hnow', hothers.trans hothers', by rw [hn, length_cons]; omega, fun d hd => ?_⟩
    rcases mem_cons.1 hd with rfl | hd
    · exact hwritten
    · exact hwritten' d hd

theorem collect_ok {s : Changing} (hm : db.trees tb.rowsTree = some m) : ∀ {keys : List Bytes} {cs : List RowChange},
    collect h tb s db keys = .ok cs →
    List.Sublist (cs.map RowChange.key) keys ∧ ∀ c ∈ cs, (m.get c.key).isSome ∧ Readables c.vals
  | [], cs, hc => by
    cases hc
    exact ⟨List.Sublist.slnil, fun c hc => by cases hc⟩
  | key :: keys, cs, hc => by
    rw [collect] at hc
    split at hc
    · cases hc
    rename_i row hrow
    split at hc
    · cases hc
    rename_i v hv
    split at hc
    · cases hc
    · obtain ⟨hsub, hall⟩ := collect_ok hm hc
      exact ⟨hsub.cons _, hall⟩
    · split at hc
      · cases hc
      rename_i vals hvals
      split at hc
      · cases hc
      rename_i cs' hrest
      cases hc
      obtain ⟨hsub, hall⟩ := collect_ok hm hrest
      refine ⟨hsub.cons_cons _, fun c hc => ?_⟩
      rcases mem_cons.1 hc with rfl | hc
      · obtain ⟨-, m', hm', hg⟩ := rowGet_ok hrow
        rw [hm] at hm'
        cases hm'
        refine ⟨by rw [hg]; rfl, ?_⟩
        unfold setValues at hvals
        split_ifs at hvals
        · cases hvals
          intro x hx
          cases hx
        · exact giveAll_readable hvals
      · exact hall c hc

def Changing.changes (h : Host) (tb : Table) (s : Changing) (db : Db) : Except Error (List RowChange) :=
  match s.walk.keys db with
  | .error e => .error e
  | .ok keys => collect h tb s db keys

structure Changed (h : Host) (fks : List FkRec) (tb : Table) (s : Changing) (db db' : Db) (m : Tree)
    (cs : List RowChange) (m' : Tree) : Prop where
  collected : s.changes h tb db = .ok cs
  checked : fkCheckChanges h fks tb s db cs = .ok ()
  once : (cs.map RowChange.key).Nodup
  there : ∀ c ∈ cs, (m.get c.key).isSome
  moved : Moved m (cs.map (s.moveOf tb m)) m'
  now : db'.trees tb.rowsTree = some m'
  others : OtherRows tb db.trees db'.trees
  catalog : db'.catalog = db.catalog
  written : ∀ c ∈ cs, (s.update = true → (s.moveOf tb m c).new.isSome) ∧ s.Writes tb m c

theorem runUpdateDelete_steps {s : Changing} (hr : (runUpdateDelete h fks tb s db).answer = .ok n) :
    ∃ keys cs bumps partWay t t', s.walk.keys db = .ok keys ∧ collect h tb s db keys = .ok cs ∧
      fkCheckChanges h fks tb s db cs = .ok () ∧ genCheckUpdates h tb s db cs = .ok bumps ∧
      applyChanges tb s 0 db.trees cs = (.ok n, partWay, t) ∧ bumpsApply tb t bumps = (.ok (), t') ∧
      (runUpdateDelete h fks tb s db).db = { db with trees := t' } := by
  unfold runUpdateDelete at hr ⊢
  rcases hwalk : s.walk.keys db with e | keys <;> rw [hwalk] at hr
  · cases hr
  dsimp only at hr ⊢
  rcases hcollect : collect h tb s db keys with e | cs <;> rw [hcollect] at hr
  · cases hr
  dsimp only at hr ⊢
  rcases hcheck : fkCheckChanges h fks tb s db cs with e | ⟨⟩ <;> rw [hcheck] at hr
  · cases hr
  dsimp only at hr ⊢
  rcases hgen : genCheckUpdates h tb s db cs with e | bumps <;> rw [hgen] at hr
  · cases hr
  dsimp only at hr ⊢
  rcases happly : applyChanges tb s 0 db.trees cs with ⟨_ | done, partWay, t⟩ <;> rw [happly] at hr
  · cases hr
  dsimp only at hr ⊢
  rcases hbump : bumpsApply tb t bumps with ⟨_ | ⟨⟩, t'⟩ <;> rw [hbump] at hr
  · cases hr
  cases hr
  exact ⟨keys, cs, bumps, partWay, t, t', rfl, hcollect, hcheck, hgen, happly, hbump, rfl⟩

/-- **An UPDATE or DELETE moves the rows it collected**, each as it was. -/
theorem runUpdateDelete_ok {s : Changing} (hm : db.trees tb.rowsTree = some m)
    (hr : (runUpdateDelete h fks tb s db).answer = .ok n) :
    ∃ cs m', n = cs.length ∧ Changed h fks tb s db (runUpdateDelete h fks tb s db).db m cs m' := by
  obtain ⟨keys, cs, bumps, partWay, t, t', hwalk, hcollect, hcheck, hgen, happly, hbump, hdb⟩ :=
    runUpdateDelete_steps hr
  rw [hdb]
  obtain ⟨hsub, hall⟩ := collect_ok hm hcollect
  have hnd : (cs.map RowChange.key).Nodup := hsub.nodup (s.walk.once db keys hwalk)
  obtain ⟨m', hmoved, hnow, hothers, hdone, hwritten⟩ := applyChanges_moved (fun c hc => (hall c hc).2) hnd hm
    (fun c hc => (hall c hc).1) (fun _ _ => rfl) happly
  have hbumps : ∀ r : Table, (bumpsApply tb t bumps).2 r.rowsTree = t r.rowsTree :=
    fun r => bumpsApply_rows tb r t bumps
  rw [hbump] at hbumps
  have hn : n = cs.length := by rw [hdone, Nat.zero_add]
  refine ⟨cs, m', hn, ?_, hcheck, hnd, fun c hc => (hall c hc).1, hmoved, (hbumps tb).trans hnow,
    fun r hr => (hbumps r).trans (hothers r hr), rfl, hwritten⟩
  rw [Changing.changes, hwalk]
  exact hcollect

theorem Stmt.insert_steps {source : Source} {random : Nat → Nat → Nat → Except Error HostValue}
    (hr : ((Stmt.insert name targets source random).run h fks db).answer = .ok n) :
    ∃ tb, tableOpen db name = .ok tb ∧ planInsert tb targets source = .ok () ∧
      (Stmt.insert name targets source random).run h fks db = runInsert h fks tb targets source random db := by
  unfold Stmt.run at hr ⊢
  dsimp only at hr ⊢
  rcases hopen : tableOpen db name with e | tb <;> rw [hopen] at hr
  · cases hr
  dsimp only at hr ⊢
  rcases hplan : planInsert tb targets source with e | ⟨⟩ <;> rw [hplan] at hr
  · cases hr
  exact ⟨tb, rfl, hplan, rfl⟩

theorem Stmt.change_steps {s : Changing} (hr : ((Stmt.change name s).run h fks db).answer = .ok n) :
    ∃ tb, tableOpen db name = .ok tb ∧ (Stmt.change name s).run h fks db = runUpdateDelete h fks tb s db := by
  unfold Stmt.run at hr ⊢
  dsimp only at hr ⊢
  rcases hopen : tableOpen db name with e | tb <;> rw [hopen] at hr
  · cases hr
  exact ⟨tb, rfl, rfl⟩

end

end Gsql
end Gbasic
