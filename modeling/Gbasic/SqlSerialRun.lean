import Gbasic.SqlForeignRun
import Gbasic.SqlSerial
/-!
# SqlSerialRun — numbers are never issued twice

A counter is at least every number that a row of its scope has, in every state reached and of every row there was on the
way to it (`NeverReissued`), so the number a row is given next is none of them.  A row's scope is read before the
serials after it are numbered: where a scope reads such a serial and the row leaves it to be numbered, the counter that
is raised is not the one of the row's scope (`Settled`).
-/
namespace Gbasic
namespace Gsql

open Engine (Trees Tree Bytes)
open List (not_mem_nil mem_cons mem_cons_self mem_cons_of_mem)

variable {s : Changing} {name' k : Bytes} {ns : List Counter}

def HasNumber (h : Host) (t : Trees) (tb : Table) (c : Nat) (scope : Bytes) (n : Nat) : Prop :=
  ∃ m key row v, t tb.rowsTree = some m ∧ m.get key = some row ∧ rowDecode tb row = .ok v ∧
    genScope h tb c v = .ok scope ∧ readU64 (v.getD c []) = some n

/-- The counters of `db` are at least the numbers of the table's rows in `d`. -/
def Covers (h : Host) (tb : Table) (d db : Db) : Prop :=
  ∀ c ∈ tb.serials, ∀ scope n, HasNumber h d.trees tb c scope n → AtLeast db.trees tb c scope n

/-- No serial's scope reads a serial that the row leaves to be numbered with it or after it. -/
def Settled (r : RowHost) (tb : Table) (vals : List (Option Bytes)) : Prop :=
  ∀ c ∈ tb.serials, ∀ d ∈ tb.serials, c ≤ d → vals.getD d none = none → ∀ ts, r.scopePlan tb c = .ok ts →
    readsAny d ts = false

/-- A database, those before it that nothing has undone, and what each BEGIN and each statement goes back to. -/
structure Session where
  db : Db
  past : List Db
  saved : List (Db × List Db)

/-- Rows inserted, other statements that succeed, and what undoes them, one after another. -/
inductive Serially (h : Host) (fks : List FkRec) (P : Table → List (Option Bytes) → Prop) (db₀ : Db) :
    Session → Prop where
  | start : Serially h fks P db₀ ⟨db₀, [], []⟩
  /-- A row of an INSERT. -/
  | row {s : Session} (hrun : Serially h fks P db₀ s) {name : Bytes} {tb : Table} {vals : List (Option Bytes)}
      {random : Nat → Nat → Except Error HostValue} {n : Nat} {db' : Db} (hopen : tableOpen s.db name = .ok tb)
      (hlen : vals.length = tb.ncols) (hread : Readables vals)
      (hrow : insertRow h fks tb vals random n s.db = (.ok (), db')) (hmeets : P tb vals) :
      Serially h fks P db₀ ⟨db', s.db :: s.past, s.saved⟩
  /-- An UPDATE or a DELETE. -/
  | change {s : Session} (hrun : Serially h fks P db₀ s) (name : Bytes) (ch : Changing) {n : Nat}
      (hok : ((Stmt.change name ch).run h fks s.db).answer = .ok n) :
      Serially h fks P db₀ ⟨((Stmt.change name ch).run h fks s.db).db, s.db :: s.past, s.saved⟩
  | restart {s : Session} (hrun : Serially h fks P db₀ s) (rs : Restart) {n : Nat}
      (hok : (rs.run s.db).answer = .ok n) :
      Serially h fks P db₀ ⟨(rs.run s.db).db, s.db :: s.past, s.saved⟩
  /-- BEGIN, or a statement's own savepoint. -/
  | mark {s : Session} (hrun : Serially h fks P db₀ s) : Serially h fks P db₀ ⟨s.db, s.past, (s.db, s.past) :: s.saved⟩
  /-- COMMIT, or a statement that succeeds. -/
  | keep {s : Session} {x : Db × List Db} {saved : List (Db × List Db)} (hrun : Serially h fks P db₀ s)
      (hsaved : s.saved = x :: saved) : Serially h fks P db₀ ⟨s.db, s.past, saved⟩
  /-- ROLLBACK, or a statement that is refused. -/
  | undo {s : Session} {d : Db} {past : List Db} {saved : List (Db × List Db)} (hrun : Serially h fks P db₀ s)
      (hsaved : s.saved = (d, past) :: saved) : Serially h fks P db₀ ⟨d, past, saved⟩

/-- A row put in has, at each serial it leaves to be numbered, a number that none of `held` has in its scope. -/
def NumberedAnew (h : Host) (tb : Table) (vals : List (Option Bytes)) (db db' : Db) (held : List Db) : Prop :=
  ∃ m k v, Inserted tb db.trees db'.trees m k v ∧ ∀ c ∈ tb.serials, vals.getD c none = none →
    ∃ scope n, genScope h tb c (v.map stored) = .ok scope ∧ readU64 ((v.map stored).getD c []) = some n ∧
      ∀ d ∈ held, ¬ HasNumber h d.trees tb c scope n

/-- The counters of a table are at least the numbers its rows have and have had, and a row numbered next is given none
of these. -/
structure NeverReissued (h : Host) (fks : List FkRec) (P : Table → List (Option Bytes) → Prop) (tb : Table)
    (s : Session) :
    Prop where
  covers : ∀ d ∈ s.db :: s.past, Covers h tb d s.db
  anew : ∀ vals random n db', vals.length = tb.ncols → Readables vals → P tb vals →
    insertRow h fks tb vals random n s.db = (.ok (), db') → NumberedAnew h tb vals s.db db' (s.db :: s.past)

section
variable {h : Host} {r : RowHost} {fks : List FkRec} {tb u : Table} {t t' : Trees} {db db' d : Db} {name : Bytes}
  {m m' : Tree} {vals filled : List (Option Bytes)} {c n : Nat} {sk : Bytes}

/-! ## A row entered -/

structure Entered (h : Host) (tb : Table) (vals filled : List (Option Bytes)) (ns : List Counter) (db db' : Db)
    (m : Tree)
    (k : Bytes) : Prop where
  inserted : Inserted tb db.trees db'.trees m k (rowValues tb filled)
  columns : TableFit tb → InColumns tb (rowValues tb filled)
  catalog : db'.catalog = db.catalog
  given : ∀ i x, vals.getD i none = some x → filled.getD i none = some x
  cols : ns.map Counter.col = tb.serials
  noted : ∀ x ∈ ns, ∃ w, Noted h db.trees tb vals filled w x ∧
    ∀ i, w.getD i [] ≠ (rowValues tb filled).getD i [] → i ∈ tb.serials ∧ x.col ≤ i ∧ vals.getD i none = none
  raised : tb.ncols ≤ MAX_ITEMS → Raises tb db.trees db'.trees ∧
    ∀ x ∈ ns, x.next ≠ 0 → AtLeast db'.trees tb x.col x.scope x.next

theorem mem_serials : c ∈ tb.serials ↔ c < tb.ncols ∧ (tb.col c).gen = .serial := by
  rw [Table.serials, List.mem_filter, List.mem_range, decide_eq_true_iff]

theorem serials_pairwise (tb : Table) : tb.serials.Pairwise (· < ·) := List.Pairwise.filter _ List.pairwise_lt_range

theorem serials_nodup (tb : Table) : tb.serials.Nodup := (serials_pairwise tb).imp (fun h => h.ne)

theorem Noted.drawn {drawn : List (Option Bytes)} {w : Vals} {x : Counter} (hn : Noted h t tb drawn filled w x)
    (hx : drawn.getD x.col none = vals.getD x.col none) : Noted h t tb vals filled w x where
  scope := hn.scope
  past := hn.past
  number := hn.number
  issued hnone := hn.issued (hx.trans hnone)

/-- An attempt enters the row, or leaves everything as it was to the draws that are left. -/
theorem insertRow_once {random : Nat → Nat → Except Error HostValue} (hlen : vals.length = tb.ncols)
    (hread : Readables vals) (hi : insertRow h fks tb vals random n db = (.ok (), db')) :
    (∃ filled ns m k, Entered h tb vals filled ns db db' m k) ∨
      ∃ n', n = n' + 1 ∧ insertRow h fks tb vals random n' db = (.ok (), db') := by
  unfold insertRow at hi
  split at hi
  · cases hi
  rename_i filled whole ns hfill
  split at hi
  · cases hi
  split at hi
  · rename_i k t hins
    left
    obtain ⟨hfills, -⟩ := genFill_ok hfill hlen hread
    obtain ⟨m, v, hres, hdone⟩ := rowInsert_ok hins
    have hv : v = rowValues tb filled := resolveFrom_none hres
    have hcols : TableFit tb → InColumns tb v := fun hfit =>
      resolveFrom_readable hres hfit.missing hfills.readable (fun o ho => by cases ho)
    subst hv
    unfold genFill at hfill
    split at hfill
    · cases hfill
    rename_i drawn hdrawn
    obtain ⟨hlen₁, hread₁, hsame₁⟩ := genRandom_ok hdrawn hread
    have hcs : ∀ c ∈ tb.serials, c < tb.ncols ∧ (tb.col c).gen = .serial := fun c hc => mem_serials.1 hc
    have hdraw : ∀ c ∈ tb.serials, drawn.getD c none = vals.getD c none := by
      intro c hc
      have hgen : (tb.col c).gen ≠ .random := by rw [(hcs c hc).2]; decide
      exact hsame₁ c (.inr hgen)
    obtain ⟨hmap, -, hnoted⟩ := genSerials_noted hfill hcs (serials_pairwise tb) (hlen₁.trans hlen) hread₁ rfl
    have hsame : ∀ r : Table, t r.serialTree = db.trees r.serialTree := by
      intro r
      have hrow := rowInsert_serial r db.trees tb filled
      rw [hins] at hrow
      exact hrow
    obtain ⟨hcommit, hdb⟩ := Prod.mk.inj hi
    subst hdb
    refine ⟨filled, ns, m, k, hdone.rowsSame (fun r => genCommit_rows tb r t ns), hcols, rfl, hfills.given, hmap,
      fun x hx => ?_, fun hmax => ?_⟩
    · obtain ⟨w, hw, hdiff⟩ := hnoted x hx
      have hxs : x.col ∈ tb.serials := hmap ▸ List.mem_map_of_mem hx
      refine ⟨w, hw.drawn (hdraw _ hxs), fun i hi => ?_⟩
      obtain ⟨his, hle, hnone⟩ := hdiff i hi
      exact ⟨his, hle, (hdraw i his).symm.trans hnone⟩
    · obtain ⟨hraise, hall⟩ := genCommit_raises hmax (Prod.ext hcommit rfl) (hmap ▸ serials_nodup tb)
        (fun x hx hne => by
        obtain ⟨w, hw, -⟩ := hnoted x hx
        obtain ⟨hm, hw', hget, hle⟩ := hw.past hne
        exact ⟨hm, hw', by rw [serialGet_congr (hsame tb)]; exact hget, hle⟩)
      exact ⟨(Raises.of_same hsame).trans hraise, hall⟩
  · rename_i e t hins
    right
    dsimp only at hi
    split_ifs at hi with hdup
    · split at hi
      · cases hi
      rename_i n'
      have ht := rowInsert_duplicate hins hdup.1
      subst ht
      exact ⟨n', rfl, hi⟩
    · cases hi

/-- **A row inserted is entered**, whatever was drawn again. -/
theorem insertRow_entered {random : Nat → Nat → Except Error HostValue} (hlen : vals.length = tb.ncols)
    (hread : Readables vals) {n : Nat} (hi : insertRow h fks tb vals random n db = (.ok (), db')) :
    ∃ filled ns m k, Entered h tb vals filled ns db db' m k := by
  induction n with
  | zero =>
    rcases insertRow_once hlen hread hi with hdone | ⟨n', hn, -⟩
    · exact hdone
    · cases hn
  | succ n ih =>
    rcases insertRow_once hlen hread hi with hdone | ⟨n', hn, hrest⟩
    · exact hdone
    · cases hn
      exact ih hrest

/-! ## The scope of a row -/

theorem genScope_stored (r : RowHost) (h : Host) (tb : Table) (c : Nat) (v : Vals) :
    genScope (r.scoped h) tb c (v.map stored) = genScope (r.scoped h) tb c v := by
  unfold genScope
  split_ifs
  · rfl
  show r.scopeOf tb c (v.map stored) = r.scopeOf tb c v
  unfold RowHost.scopeOf
  split
  · rfl
  · rw [evalTerms_stored]

/-- **A settled row's scope is the one its serial noted**, though the serials after it had no number then. -/
theorem Settled.genScope_eq (hset : Settled r tb vals) (hc : c ∈ tb.serials) {v w : Vals}
    (hdiff : ∀ i, w.getD i [] ≠ v.getD i [] → i ∈ tb.serials ∧ c ≤ i ∧ vals.getD i none = none) :
    genScope (r.scoped h) tb c w = genScope (r.scoped h) tb c v := by
  unfold genScope
  split_ifs
  · rfl
  show r.scopeOf tb c w = r.scopeOf tb c v
  unfold RowHost.scopeOf
  rcases hplan : r.scopePlan tb c with e | ts
  · rfl
  dsimp only
  rw [evalTerms_congr (fun i hi => ?_)]
  by_contra hne
  obtain ⟨his, hle, hnone⟩ := hdiff i (fun he => hne (by rw [he]))
  have hnot := hset c hc i his hle hnone ts hplan
  rw [hnot] at hi
  cases hi

theorem readU64_stored {v : Bytes} (hr : readU64 (stored v) = some n) : readU64 v = some n ∧ stored v = v := by
  unfold stored at hr ⊢
  split_ifs at hr ⊢ with hv
  · cases hr
  · exact ⟨hr, rfl⟩

theorem rowValues_given {x : Bytes} (hc : c < tb.ncols) (hx : filled.getD c none = some x) :
    (rowValues tb filled).getD c [] = x := by
  have hcols : c < tb.cols.length := hc
  rw [rowValues, List.getD_eq_getElem?_getD, List.getElem?_mapIdx, List.getElem?_eq_getElem hcols, Option.map_some, hx]
  rfl

/-! ## One step -/

theorem serialTree_eq_iff : u.serialTree = tb.serialTree ↔ u.rowsTree = tb.rowsTree := by
  simp only [Table.serialTree, Table.rowsTree, treeName, List.cons.injEq, true_and]

theorem Covers.raised (hT : TablesHold db) (htb : db.table name = some tb) (hu : db.table name' = some u)
    (hr : Raises u db.trees db'.trees) (hc : Covers h tb d db) : Covers h tb d db' := by
  intro c hcs sk n hn
  have hat := hc c hcs sk n hn
  by_cases he : u.rowsTree = tb.rowsTree
  · rw [hT.same htb hu he] at hr
    exact hat.raised hr
  · obtain ⟨hw, hget, hle⟩ := hat
    have hne : tb.serialTree ≠ u.serialTree := fun h => he (serialTree_eq_iff.1 h.symm)
    exact ⟨hw, by rw [serialGet_congr (hr.others tb hne)]; exact hget, hle⟩

theorem HasNumber.same (hrows : t' tb.rowsTree = t tb.rowsTree) (hn : HasNumber h t' tb c sk n) :
    HasNumber h t tb c sk n := by
  obtain ⟨m, key, row, v, hm, hrest⟩ := hn
  exact ⟨m, key, row, v, hrows.symm.trans hm, hrest⟩

theorem Entered.reached (he : Entered (r.scoped h) tb vals filled ns db db' m k) (hfit : TableFit tb)
    (hset : Settled r tb vals) (hc : c ∈ tb.serials)
    (hscope : genScope (r.scoped h) tb c ((rowValues tb filled).map stored) = .ok sk)
    (hn : readU64 (((rowValues tb filled).map stored).getD c []) = some n) : AtLeast db'.trees tb c sk n := by
  rw [← he.cols] at hc
  obtain ⟨x, hx, rfl⟩ := List.mem_map.1 hc
  have hxs : x.col ∈ tb.serials := he.cols ▸ List.mem_map_of_mem hx
  obtain ⟨w, hw, hdiff⟩ := he.noted x hx
  obtain ⟨hraise, hnext⟩ := he.raised hfit.cols
  have hskx : sk = x.scope := by
    rw [genScope_stored, ← hset.genScope_eq hxs hdiff, hw.scope] at hscope
    exact (Except.ok.inj hscope).symm
  subst hskx
  rw [getD_stored] at hn
  obtain ⟨hread, -⟩ := readU64_stored hn
  obtain ⟨v, hv⟩ : ∃ v, filled.getD x.col none = some v := by
    rcases hg : vals.getD x.col none with _ | g
    · obtain ⟨hw', -, -, -, hf⟩ := hw.issued hg
      exact ⟨_, hf⟩
    · exact ⟨g, he.given _ _ hg⟩
  rw [rowValues_given (mem_serials.1 hxs).1 hv] at hread
  rcases hw.number v n hv hread with hat | ⟨hne, rfl⟩
  · exact hat.raised hraise
  · exact hnext x hx hne

/-- **A row entered leaves the counters at least its table's numbers.** -/
theorem Entered.covers (hT : TablesHold db) (htb : db.table name = some tb) (hu : db.table name' = some u)
    (he : Entered (r.scoped h) u vals filled ns db db' m k) (hset : u = tb → Settled r u vals)
    (hc : Covers (r.scoped h) tb db db) : Covers (r.scoped h) tb db' db' := by
  have hfit := hT.fits _ _ hu
  intro c hcs sk n hn
  have hcov : Covers (r.scoped h) tb db db' := hc.raised hT htb hu (he.raised hfit.cols).1
  by_cases hrows : u.rowsTree = tb.rowsTree
  swap
  · exact hcov c hcs sk n (hn.same (he.inserted.others tb (Ne.symm hrows)))
  have hut := hT.same htb hu hrows
  subst hut
  obtain ⟨m', key, row, v, hm', hrow, hdec, hscope, hread⟩ := hn
  rw [he.inserted.now] at hm'
  cases hm'
  rw [SortedMap.get_put] at hrow
  split_ifs at hrow
  · cases hrow
    rw [(rowHeld_encode hfit he.inserted.whole he.inserted.key (he.columns hfit)).decoded] at hdec
    cases hdec
    exact he.reached hfit (hset rfl) hcs hscope hread
  · exact hcov c hcs sk n ⟨m, key, row, v, he.inserted.rows, hrow, hdec, hscope, hread⟩

/-- **A row numbered is numbered anew**, past what its scope's counter covers. -/
theorem Entered.anew (he : Entered (r.scoped h) tb vals filled ns db db' m k) (hset : Settled r tb vals)
    {held : List Db} (hc : ∀ d ∈ held, Covers (r.scoped h) tb d db) :
    NumberedAnew (r.scoped h) tb vals db db' held := by
  refine ⟨m, k, rowValues tb filled, he.inserted, fun c hcs hnone => ?_⟩
  have hns := hcs
  rw [← he.cols] at hns
  obtain ⟨x, hx, rfl⟩ := List.mem_map.1 hns
  obtain ⟨w, hw, hdiff⟩ := he.noted x hx
  obtain ⟨hw', hget, hlt, -, hf⟩ := hw.issued hnone
  refine ⟨x.scope, hw' + 1, ?_, ?_, fun d hd hn => ?_⟩
  · rw [genScope_stored, ← hset.genScope_eq hcs hdiff, hw.scope]
  · have hput : stored (putExact (hw' + 1)) = putExact (hw' + 1) := by
      rw [stored, if_neg (by simp [putExact])]
    rw [getD_stored, rowValues_given (mem_serials.1 hcs).1 hf, hput, readU64_putExact hlt]
  · obtain ⟨hw'', hget', hle⟩ := hc d hd x.col hcs x.scope (hw' + 1) hn
    rw [hget] at hget'
    cases hget'
    omega

theorem Entered.tables (hT : TablesHold db) (hu : db.table name = some u) (he : Entered h u vals filled ns db db' m k) :
    TablesHold db' := by
  have hfit := hT.fits _ _ hu
  obtain ⟨m₀, hm₀, hheld⟩ := hT.rows _ _ hu
  rw [he.inserted.rows] at hm₀
  cases hm₀
  exact hT.replace hu he.catalog he.inserted.now
    (hheld.put (rowHeld_encode hfit he.inserted.whole he.inserted.key (he.columns hfit))) he.inserted.others

/-! ## Rows changed -/

theorem mapM_mem {α β ε : Type} {f : α → Except ε β} : ∀ {l : List α} {l' : List β}, l.mapM f = .ok l' →
    (∀ a ∈ l, ∃ b ∈ l', f a = .ok b) ∧ ∀ b ∈ l', ∃ a ∈ l, f a = .ok b := by
  intro l l' hl
  have hall := mapM_ok hl
  clear hl
  induction hall with
  | nil => exact ⟨fun a ha => (not_mem_nil ha).elim, fun b hb => (not_mem_nil hb).elim⟩
  | @cons a b l l' hab _ ih =>
    constructor
    · intro a' ha'
      rcases mem_cons.1 ha' with rfl | ha'
      · exact ⟨b, mem_cons_self .., hab⟩
      · obtain ⟨b', hb', he⟩ := ih.1 a' ha'
        exact ⟨b', mem_cons_of_mem _ hb', he⟩
    · intro b' hb'
      rcases mem_cons.1 hb' with rfl | hb'
      · exact ⟨a, mem_cons_self .., hab⟩
      · obtain ⟨a', ha', he⟩ := ih.2 b' hb'
        exact ⟨a', mem_cons_of_mem _ ha', he⟩

structure ScopeKept (h : Host) (tb : Table) (s : Changing) (old new : Vals) (c : Nat) (o : Option Counter)
    (sk : Bytes) :
    Prop where
  scope : genScope h tb c new = .ok sk
  stays : c ∉ s.targets → genScope h tb c old = .ok sk
  bump : c ∈ s.targets → o = (readU64 (new.getD c [])).map (fun v => ⟨c, sk, v⟩)
  short : ∀ b, o = some b → b.next ≤ INT64_MAX

theorem genCheckSerial_ok {old new : Vals} {o : Option Counter} (hg : genCheckSerial h tb s old new c = .ok o) :
    ∃ sk, ScopeKept h tb s old new c o sk := by
  unfold genCheckSerial at hg
  split at hg
  · cases hg
  rename_i before hbefore
  split at hg
  · cases hg
  rename_i sk hsk
  split_ifs at hg with hmoved htarget
  · cases hg
    refine ⟨sk, hsk, fun hno => absurd htarget hno, fun _ => rfl, fun b hb => ?_⟩
    obtain ⟨v, hv, rfl⟩ := Option.map_eq_some_iff.1 hb
    exact readU64_le hv
  · cases hg
    refine ⟨sk, hsk, fun _ => ?_, fun h => absurd h htarget, fun b hb => by cases hb⟩
    have hsame : before = sk := by
      by_contra hne
      exact hmoved ⟨hne, htarget⟩
    rw [← hsame]
    exact hbefore

theorem genCheckUpdates_ok {cs : List RowChange} {bumps : List Counter} (hu : s.update = true)
    (hg : genCheckUpdates h tb s db cs = .ok bumps) :
    (∀ b ∈ bumps, b.next ≤ INT64_MAX) ∧ ∀ ch ∈ cs, ∀ c ∈ tb.serials, ∃ row old, rowGet db.trees tb ch.key = .ok row ∧
      rowDecode tb row = .ok old ∧ ∃ o sk, ScopeKept h tb s old (s.newVals tb ch old) c o sk ∧ ∀ b,
      o = some b → b ∈ bumps := by
  unfold genCheckUpdates at hg
  split_ifs at hg with hnone
  · cases hg
    refine ⟨fun b hb => (not_mem_nil hb).elim, fun ch _ c hc => ?_⟩
    rw [hu, Bool.not_true, Bool.false_or, List.isEmpty_iff] at hnone
    rw [hnone] at hc
    exact (not_mem_nil hc).elim
  split at hg
  · cases hg
  rename_i ls hls
  cases hg
  obtain ⟨hleft, hright⟩ := mapM_mem hls
  have hone : ∀ ch l, genCheckUpdate h tb s db ch = .ok l → ∃ row old, rowGet db.trees tb ch.key = .ok row ∧
      rowDecode tb row = .ok old ∧ tb.serials.mapM (genCheckSerial h tb s old (s.newVals tb ch old)) = .ok l := by
    intro ch l hl
    unfold genCheckUpdate at hl
    split at hl
    · cases hl
    rename_i row hrow
    split at hl
    · cases hl
    rename_i old hold
    exact ⟨row, old, hrow, hold, hl⟩
  refine ⟨fun b hb => ?_, fun ch hch c hc => ?_⟩
  · obtain ⟨o, ho, he⟩ := List.mem_filterMap.1 hb
    obtain ⟨l, hl, hol⟩ := List.mem_flatten.1 ho
    obtain ⟨ch, -, hl'⟩ := hright l hl
    obtain ⟨row, old, -, -, hserials⟩ := hone ch l hl'
    obtain ⟨c, -, hc⟩ := (mapM_mem hserials).2 o hol
    obtain ⟨sk, hk⟩ := genCheckSerial_ok hc
    exact hk.short b he
  · obtain ⟨l, hl, hl'⟩ := hleft ch hch
    obtain ⟨row, old, hrow, hold, hserials⟩ := hone ch l hl'
    obtain ⟨o, ho, hco⟩ := (mapM_mem hserials).1 c hc
    obtain ⟨sk, hk⟩ := genCheckSerial_ok hco
    exact ⟨row, old, hrow, hold, o, sk, hk, fun b hb =>
      List.mem_filterMap.2 ⟨o, List.mem_flatten.2 ⟨l, hl, ho⟩, hb⟩⟩

/-- **An UPDATE's counters reach its numbers**, and no counter goes down. -/
theorem runUpdateDelete_raises (hcols : tb.ncols ≤ MAX_ITEMS) (hr : (runUpdateDelete h fks tb s db).answer = .ok n) :
    ∃ cs bumps, s.changes h tb db = .ok cs ∧
      genCheckUpdates h tb s db cs = .ok bumps ∧ Raises tb db.trees (runUpdateDelete h fks tb s db).db.trees ∧
      ∀ b ∈ bumps, AtLeast (runUpdateDelete h fks tb s db).db.trees tb b.col b.scope b.next := by
  obtain ⟨keys, cs, bumps, partWay, t, t', hwalk, hcollect, -, hgen, happly, hbump, hdb⟩ := runUpdateDelete_steps hr
  rw [hdb]
  have hsame := fun r => applyChanges_serial r tb s cs 0 db.trees
  rw [happly] at hsame
  have hmax : ∀ b ∈ bumps, b.next ≤ INT64_MAX := by
    by_cases hu : s.update = true
    · exact (genCheckUpdates_ok hu hgen).1
    · unfold genCheckUpdates at hgen
      rw [if_pos (by simp [hu])] at hgen
      cases hgen
      exact fun b hb => (not_mem_nil hb).elim
  obtain ⟨hraise, hall⟩ := bumpsApply_raises hcols hbump hmax
  refine ⟨cs, bumps, ?_, hgen, (Raises.of_same hsame).trans hraise, hall⟩
  rw [Changing.changes, hwalk]
  exact hcollect

theorem newVals_kept {ch : RowChange} {old : Vals} (hold : old.length = tb.ncols) (hc : c ∉ s.targets) :
    (s.newVals tb ch old).getD c [] = old.getD c [] := by
  have hgiven : (s.given tb ch).getD c none = none := placed_other hc _
  have hlen : (s.given tb ch).length = old.length := (length_placed _ _ _).trans hold.symm
  rw [Changing.newVals, List.getD_eq_getElem?_getD, List.getD_eq_getElem?_getD, List.getElem?_zipWith]
  by_cases hi : c < old.length
  · rw [List.getElem?_eq_getElem hi, List.getElem?_eq_getElem (hlen ▸ hi)]
    rw [List.getD_eq_getElem _ _ (hlen ▸ hi)] at hgiven
    rw [hgiven]
    rfl
  · rw [List.getElem?_eq_none (not_lt.1 hi), List.getElem?_eq_none (by omega)]

/-- A change leaves its table's counters at least its numbers. -/
theorem change_covers (hT : TablesHold db) (htb : db.table name = some tb) (hu : db.table name' = some u)
    (hr : (runUpdateDelete (r.scoped h) fks u s db).answer = .ok n) (hc : Covers (r.scoped h) tb db db) :
    TablesHold (runUpdateDelete (r.scoped h) fks u s db).db ∧
      Raises u db.trees (runUpdateDelete (r.scoped h) fks u s db).db.trees ∧
      (runUpdateDelete (r.scoped h) fks u s db).db.catalog = db.catalog ∧
      Covers (r.scoped h) tb (runUpdateDelete (r.scoped h) fks u s db).db
      (runUpdateDelete (r.scoped h) fks u s db).db := by
  have hfit := hT.fits _ _ hu
  obtain ⟨m, hm, hheld⟩ := hT.rows _ _ hu
  obtain ⟨cs, m', -, hch⟩ := runUpdateDelete_ok hm hr
  obtain ⟨cs', bumps, hcs', hbumps, hraise, hall⟩ := runUpdateDelete_raises hfit.cols hr
  have hcc : cs' = cs := Except.ok.inj (hcs'.symm.trans hch.collected)
  subst hcc
  have hcov := hc.raised hT htb hu hraise
  refine ⟨hT.replace hu hch.catalog hch.now (hch.held hfit hheld) hch.others, hraise, hch.catalog, ?_⟩
  intro c hcs sk n hn
  by_cases hrows : u.rowsTree = tb.rowsTree
  swap
  · exact hcov c hcs sk n (hn.same (hch.others tb (Ne.symm hrows)))
  have hut := hT.same htb hu hrows
  subst hut
  obtain ⟨m₁, key, row, v, hm₁, hrow, hdec, hscope, hread⟩ := hn
  rw [hch.now] at hm₁
  cases hm₁
  rcases hch.rows hfit hheld hrow with hold | ⟨ch, hmem, v', hup, hbecomes, hnew⟩
  · exact hcov c hcs sk n ⟨m, key, row, v, hm, hold, hdec, hscope, hread⟩
  rw [hnew.decoded] at hdec
  cases hdec
  obtain ⟨-, hfound⟩ := genCheckUpdates_ok hup hbumps
  obtain ⟨oldrow, old, hget, hdecOld, o, sk', hkept, hbump⟩ := hfound ch hmem c hcs
  obtain ⟨-, m₂, hm₂, hg⟩ := rowGet_ok hget
  rw [hm] at hm₂
  cases hm₂
  have hv' : v' = s.newVals u ch old := by
    rw [Changing.becomes, hg] at hbecomes
    dsimp only at hbecomes
    rw [hdecOld] at hbecomes
    exact (Option.some.inj hbecomes).symm
  subst hv'
  rw [genScope_stored, hkept.scope] at hscope
  cases hscope
  rw [getD_stored] at hread
  obtain ⟨hread, -⟩ := readU64_stored hread
  by_cases htarget : c ∈ s.targets
  · have hbumped := hkept.bump htarget
    rw [hread] at hbumped
    exact hall _ (hbump _ hbumped)
  · -- the number is the one the row had, in the scope it had
    rw [newVals_kept (rowDecode_length hdecOld) htarget] at hread
    exact hcov c hcs _ n ⟨m, ch.key, oldrow, old, hm, hg, hdecOld, hkept.stays htarget, hread⟩

/-! ## A counter set -/

theorem serialSet_raised {hw now : Nat} (hcols : tb.ncols ≤ MAX_ITEMS) (hmax : hw < 2 ^ 64)
    (hget : serialGet t tb c sk = .ok now) (hle : now ≤ hw) (hs : serialSet t tb c sk hw = (.ok (), t')) :
    Raises tb t t' := by
  refine serialSet_raises hcols hmax (fun hw' h' => ?_) hs
  rw [hget] at h'
  cases h'
  exact hle

/-- RESTART WITH raises a counter of one table, and leaves every table's rows as they are. -/
theorem restart_raises (hT : TablesHold db) {rs : Restart} (hr : (rs.run db).answer = .ok n) :
    ∃ name u, db.table name = some u ∧ Raises u db.trees (rs.run db).db.trees ∧
      (∀ v : Table, (rs.run db).db.trees v.rowsTree = db.trees v.rowsTree) ∧ (rs.run db).db.catalog = db.catalog := by
  unfold Restart.run at hr ⊢
  split at hr
  · cases hr
  rename_i u hopen
  have hu := tableOpen_ok hopen
  refine ⟨rs.table, u, hu, ?_⟩
  have hcols := (hT.fits _ _ hu).cols
  split at hr
  · cases hr
  rename_i c hcol
  split at hr
  · cases hr
  rename_i hw sk heval
  have hmax : hw < 2 ^ 64 := by
    unfold restartEval at heval
    split at heval
    · cases heval
    split at heval
    · cases heval
    rename_i hnum
    split at heval <;> cases heval
    exact lt_of_le_of_lt (readU64_le hnum) (by decide)
  unfold restartSet at hr ⊢
  rcases hget : serialGet db.trees u c sk with e | now <;> rw [hget] at hr
  · cases hr
  dsimp only at hr ⊢
  split_ifs at hr ⊢ with hlow hsame
  · exact ⟨Raises.of_same (fun _ => rfl), fun _ => rfl, rfl⟩
  · rcases hset : serialSet db.trees u c sk hw with ⟨_ | ⟨⟩, t⟩ <;> rw [hset] at hr
    · cases hr
    refine ⟨serialSet_raised hcols hmax hget (not_lt.1 hlow) hset, fun v => ?_, rfl⟩
    have hother : (serialSet db.trees u c sk hw).2 v.rowsTree = db.trees v.rowsTree :=
      serialSet_other (serialTree_ne_rowsTree u v).symm
    rw [hset] at hother
    exact hother

/-! ## Runs -/

structure Line (h : Host) (tb : Table) (name : Bytes) (db : Db) (past : List Db) : Prop where
  tables : TablesHold db
  table : db.table name = some tb
  covers : ∀ d ∈ db :: past, Covers h tb d db

theorem Line.step {past : List Db} (hl : Line h tb name db past) (hu : db.table name' = some u) (hT : TablesHold db')
    (hr : Raises u db.trees db'.trees) (hcat : db'.catalog = db.catalog) (hc : Covers h tb db' db') :
    Line h tb name db' (db :: past) where
  tables := hT
  table := (table_congr hcat name).trans hl.table
  covers d hd := by
    rcases mem_cons.1 hd with rfl | hd
    · exact hc
    · exact (hl.covers d hd).raised hl.tables hl.table hu hr

/-- **One step**, whatever undoes it later. -/
theorem serially_line {db₀ : Db} {s : Session} (hl : Line (r.scoped h) tb name db₀ [])
    (hrun : Serially (r.scoped h) fks (fun u vals => u = tb → Settled r tb vals) db₀ s) :
    Line (r.scoped h) tb name s.db s.past ∧ ∀ x ∈ s.saved, Line (r.scoped h) tb name x.1 x.2 := by
  induction hrun with
  | start => exact ⟨hl, fun x hx => (not_mem_nil hx).elim⟩
  | @row s _ name' u vals random n db' hopen hlen hread hrow hmeets ih =>
    refine ⟨?_, ih.2⟩
    have hu := tableOpen_ok hopen
    obtain ⟨filled, ns, m, k, he⟩ := insertRow_entered hlen hread hrow
    have hcols := (ih.1.tables.fits _ _ hu).cols
    exact ih.1.step hu (he.tables ih.1.tables hu) (he.raised hcols).1 he.catalog
      (he.covers ih.1.tables ih.1.table hu (fun h => h ▸ hmeets h) (ih.1.covers _ (mem_cons_self ..)))
  | @change s _ name' ch n hok ih =>
    refine ⟨?_, ih.2⟩
    obtain ⟨u, hopen, hrun⟩ := Stmt.change_steps hok
    rw [hrun] at hok ⊢
    have hu := tableOpen_ok hopen
    obtain ⟨hT, hraise, hcat, hcov⟩ :=
      change_covers ih.1.tables ih.1.table hu hok (ih.1.covers _ (mem_cons_self ..))
    exact ih.1.step hu hT hraise hcat hcov
  | @restart s _ rs n hok ih =>
    refine ⟨?_, ih.2⟩
    obtain ⟨name', u, hu, hraise, hrows, hcat⟩ := restart_raises ih.1.tables hok
    obtain ⟨m, hm, hheld⟩ := ih.1.tables.rows _ _ hu
    have hcov := (ih.1.covers _ (mem_cons_self ..)).raised ih.1.tables ih.1.table hu hraise
    exact ih.1.step hu (ih.1.tables.replace hu hcat ((hrows u).trans hm) hheld (fun v _ => hrows v)) hraise hcat
      (fun c hc sk n hn => hcov c hc sk n (hn.same (hrows tb)))
  | mark _ ih =>
    refine ⟨ih.1, fun x hx => ?_⟩
    rcases mem_cons.1 hx with rfl | hx
    · exact ih.1
    · exact ih.2 x hx
  | keep _ hsaved ih => exact ⟨ih.1, fun x hx => ih.2 x (hsaved ▸ mem_cons_of_mem _ hx)⟩
  | undo _ hsaved ih =>
    exact ⟨ih.2 _ (hsaved ▸ mem_cons_self ..), fun x hx => ih.2 x (hsaved ▸ mem_cons_of_mem _ hx)⟩

theorem covers_empty (hm : db.trees tb.rowsTree = some .empty) : Covers h tb db db' := by
  rintro c - sk n ⟨m, key, row, v, hm', hrow, -⟩
  rw [hm] at hm'
  cases hm'
  rw [SortedMap.get_empty] at hrow
  cases hrow

/-- **Serial numbers are never issued twice**, where every row inserted into the table is settled. -/
theorem serials_never_reissued {db₀ : Db} {s : Session} (hT : TablesHold db₀) (htb : db₀.table name = some tb)
    (hempty : db₀.trees tb.rowsTree = some .empty)
    (hrun : Serially (r.scoped h) fks (fun u vals => u = tb → Settled r tb vals) db₀ s) :
    NeverReissued (r.scoped h) fks (fun u vals => u = tb → Settled r tb vals) tb s := by
  have hstart : Line (r.scoped h) tb name db₀ [] := by
    refine ⟨hT, htb, fun d hd => ?_⟩
    rw [List.mem_singleton.1 hd]
    exact covers_empty hempty
  obtain ⟨hl, -⟩ := serially_line hstart hrun
  refine ⟨hl.covers, fun vals random n db' hlen hread hmeets hrow => ?_⟩
  obtain ⟨filled, ns, m, k, he⟩ := insertRow_entered hlen hread hrow
  exact he.anew (hmeets rfl) hl.covers

/-- **An INSERT that succeeds is its rows**, inserted one after another. -/
theorem insertRows_serially {P : Table → List (Option Bytes) → Prop} {db₀ : Db}
    {random : Nat → Nat → Nat → Except Error HostValue} {source : String} {many : Bool} :
    ∀ {rows : List (Db → Except Error (List (Option Bytes)))} {done n : Nat} {s : Session}, Serially h fks P db₀ s →
    tableOpen s.db name = .ok tb → (∀ row ∈ rows, ∀ db vals,
      row db = .ok vals → vals.length = tb.ncols ∧ Readables vals ∧ P tb vals) →
    (insertRows h fks tb random source many done rows s.db).answer = .ok n →
    ∃ past, Serially h fks P db₀ ⟨(insertRows h fks tb random source many done rows s.db).db, past ++ s.past, s.saved⟩
  | [], done, n, s, hrun, _, _, _ => ⟨[], hrun⟩
  | row :: rows, done, n, s, hrun, hopen, hrows, hr => by
    rw [insertRows] at hr ⊢
    rcases hrow : row s.db with e | vals <;> rw [hrow] at hr
    · cases hr
    dsimp only at hr ⊢
    obtain ⟨hlen, hread, hmeets⟩ := hrows row (mem_cons_self ..) s.db vals hrow
    rcases hins : insertRow h fks tb vals (random done) (GEN_DRAWS - 1) s.db with ⟨_ | ⟨⟩, db₁⟩ <;> rw [hins] at hr
    · cases hr
    dsimp only at hr ⊢
    obtain ⟨filled, ns, m, k, he⟩ := insertRow_entered hlen hread hins
    obtain ⟨past, hpast⟩ := insertRows_serially (hrun.row hopen hlen hread hins hmeets)
      ((tableOpen_congr he.catalog name).trans hopen) (fun r hr => hrows r (mem_cons_of_mem _ hr)) hr
    refine ⟨past ++ [s.db], ?_⟩
    rw [List.append_assoc]
    exact hpast

theorem insert_serially {P : Table → List (Option Bytes) → Prop} {db₀ : Db} {s : Session}
    (hrun : Serially h fks P db₀ s) {targets : List Nat} {source : Source}
    {random : Nat → Nat → Nat → Except Error HostValue}
    (hok : ((Stmt.insert name targets source random).run h fks s.db).answer = .ok n)
    (hmeets : ∀ tb rows, tableOpen s.db name = .ok tb → source.rows h tb targets s.db = .ok rows →
      ∀ row ∈ rows, ∀ db vals, row db = .ok vals → P tb vals) :
    ∃ past, Serially h fks P db₀
      ⟨((Stmt.insert name targets source random).run h fks s.db).db, past ++ s.past, s.saved⟩ := by
  obtain ⟨tb, hopen, -, hran⟩ := Stmt.insert_steps hok
  rw [hran] at hok ⊢
  unfold runInsert at hok ⊢
  cases source with
  | values v =>
    have hrows : (Source.values v).rows h tb targets s.db =
        .ok (v.rows.map (fun r => valuesRow h tb targets (itemsOf r))) := rfl
    exact insertRows_serially hrun hopen (fun row hrow db vals hv => by
      obtain ⟨hlen, hread⟩ := sourceRows_ok hrows row hrow db vals hv
      exact ⟨hlen, hread, hmeets tb _ hopen hrows row hrow db vals hv⟩) hok
  | query nout q =>
    dsimp only at hok ⊢
    rcases hq : q s.db with e | rows <;> rw [hq] at hok
    · cases hok
    have hrows : (Source.query nout q).rows h tb targets s.db = .ok (rows.map (queryRow h tb targets)) := by
      rw [Source.rows, hq]
    exact insertRows_serially hrun hopen (fun row hrow db vals hv => by
      obtain ⟨hlen, hread⟩ := sourceRows_ok hrows row hrow db vals hv
      exact ⟨hlen, hread, hmeets tb _ hopen hrows row hrow db vals hv⟩) hok

end

/-! ## A scope that reads a serial after it -/

/-- A database of one table, without rows. -/
def oneTable (tb : Table) : Db :=
  ⟨some (SortedMap.empty.put tb.name tb), fun n => if n = tb.rowsTree ∨ n = tb.serialTree then some .empty else none⟩

/-- Each text is a column's name. -/
def nameHost : RowHost := ⟨fun s => .ok (.name s []), fun v _ => .ok v⟩

/-- A number for each task. -/
def taskLog : Table :=
  ⟨text "task_log", 1, 1, [⟨text "task_id", .integer, [], true, none, .none, [], 0, none⟩,
    ⟨text "n", .integer, [], true, none, .serial, [text "task_id"], 0, none⟩], [0, 1], []⟩

def crossed : Table :=
  ⟨text "crossed", 1, 1, [⟨text "a", .integer, [], true, none, .serial, [text "b"], 0, none⟩,
    ⟨text "b", .integer, [], true, none, .serial, [], 0, none⟩], [0, 1], []⟩

def logTwice : Stmt :=
  .insert taskLog.name [0] (.values ⟨1, [[some (.const (.ok (hostNumber 7)))], [some (.const (.ok (hostNumber 7)))]],
    by simp⟩) (fun _ _ _ => .ok hostAbsent)

theorem oneTable_table {tb u : Table} {name : Bytes} (h : (oneTable tb).table name = some u) :
    name = tb.name ∧ u = tb := by
  rw [Db.table, oneTable] at h
  dsimp only [Option.bind_some] at h
  rw [SortedMap.get_put] at h
  split_ifs at h with hn
  · exact ⟨hn, (Option.some.inj h).symm⟩
  · cases h

theorem oneTable_self (tb : Table) : (oneTable tb).table tb.name = some tb := by
  rw [Db.table, oneTable]
  exact SortedMap.get_put_self ..

theorem oneTable_empty (tb : Table) : (oneTable tb).trees tb.rowsTree = some .empty := by simp [oneTable]

theorem oneTable_tables {tb : Table} (hfit : TableFit tb) : TablesHold (oneTable tb) where
  named name u h := by
    obtain ⟨rfl, rfl⟩ := oneTable_table h
    rfl
  fits name u h := by
    obtain ⟨rfl, rfl⟩ := oneTable_table h
    exact hfit
  apart name u name' u' h h' _ := (oneTable_table h).1.trans (oneTable_table h').1.symm
  rows name u h := by
    obtain ⟨rfl, rfl⟩ := oneTable_table h
    refine ⟨.empty, oneTable_empty u, fun k row hk => ?_⟩
    rw [SortedMap.get_empty] at hk
    cases hk

theorem settled_taskLog (vals : List (Option Bytes)) : Settled nameHost taskLog vals := by
  intro c hc d hd _ _ ts hts
  rw [show taskLog.serials = [1] from rfl, List.mem_singleton] at hc hd
  subst hc hd
  cases hts
  rfl

theorem serials_never_reissued_log : ∃ past, NeverReissued (nameHost.scoped plainHost) []
    (fun u vals => u = taskLog → Settled nameHost taskLog vals) taskLog
    ⟨(logTwice.run (nameHost.scoped plainHost) [] (oneTable taskLog)).db, past, []⟩ := by
  have hok : (logTwice.run (nameHost.scoped plainHost) [] (oneTable taskLog)).answer = .ok 2 := by rfl
  obtain ⟨past, hrun⟩ := insert_serially (P := fun u vals => u = taskLog → Settled nameHost taskLog vals) .start hok
    (fun _ _ _ _ _ _ _ vals _ _ => settled_taskLog vals)
  exact ⟨_, serials_never_reissued (oneTable_tables ⟨by decide, by decide, by decide⟩) (oneTable_self taskLog)
    (oneTable_empty taskLog) hrun⟩

def crossedRow : Except Error Unit × Db :=
  insertRow (nameHost.scoped plainHost) [] crossed [none, none] (fun _ _ => .ok hostAbsent) 0 (oneTable crossed)

def scopeOne : Bytes := (Key.keyAppend [] (putExact 1) ⟨false, false⟩).2.1

/-- The row's first number is counted for no second number at all, and its second number is 1. -/
theorem crossed_not_covered : ¬ ∀ (r : RowHost) (h : Host) (fks : List FkRec) (tb : Table) (name : Bytes) (db₀ : Db)
    (s : Session), TablesHold db₀ → db₀.table name = some tb → db₀.trees tb.rowsTree = some .empty →
    Serially (r.scoped h) fks (fun _ _ => True) db₀ s → NeverReissued (r.scoped h) fks (fun _ _ => True) tb s := by
  intro hall
  have hrow : crossedRow = (.ok (), crossedRow.2) := Prod.ext (by rfl) rfl
  have hrun : Serially (nameHost.scoped plainHost) [] (fun _ _ => True) (oneTable crossed)
      ⟨crossedRow.2, [oneTable crossed], []⟩ :=
    .row .start (by rfl : tableOpen (oneTable crossed) crossed.name = .ok crossed) (by rfl) (by intro x hx; simp at hx)
      hrow trivial
  have hnever := hall nameHost plainHost [] crossed crossed.name _ _ (oneTable_tables ⟨by decide, by decide, by decide⟩)
    (oneTable_self crossed) (oneTable_empty crossed) hrun
  obtain ⟨hw, hget, hle⟩ := hnever.covers _ (List.mem_cons_self ..) 0 (by decide) scopeOne 1
    ⟨(crossedRow.2.trees crossed.rowsTree).getD .empty, (primaryKey crossed [putExact 1, putExact 1]).toOption.getD [],
      rowEncode crossed [putExact 1, putExact 1], [putExact 1, putExact 1], by rfl, by rfl, by rfl, by rfl, by rfl⟩
  have hzero : serialGet crossedRow.2.trees crossed 0 scopeOne = .ok 0 := by rfl
  rw [hzero] at hget
  cases hget
  omega

end Gsql
end Gbasic
