import Mathlib.Data.List.GetD
import Gbasic.TableCatalog
import Gbasic.TableIndex
import Gbasic.TableWrites
/-!
# TableAgree — rows and indexes in step

`Agrees` is what every operation keeps: each row sits under the key its columns make, each index is made from the rows
entry by entry and leads back to them, and a tree belongs to one table.  An operation changes one table's record and
trees (`Agrees.replace`) or nothing but the meta tree (`Agrees.same`); a record that changes its name, its last columns
or its indexes reads the same rows (`TableHolds.extends`).
-/
namespace Gbasic
namespace Gsql

open Lsm (GS_MAX_KEY)
open Engine (Trees Tree Bytes)
open SortedMap (Indexed)

variable {s : List Column}

/-! ## One table -/

def entryOf (tb : Table) (x : Index) (k row : Bytes) : Option (Bytes × Bytes) :=
  match rowDecode tb row with
  | .error _ => none
  | .ok v => (indexEntry tb x v k).map (fun e => (e.key, e.value k))

def leadsTo (tb : Table) (x : Index) (e : Bytes × Bytes) : Option Bytes :=
  match indexRowkey tb x e.1 e.2 with
  | .ok k => some k
  | .error _ => none

def KeyOf (tb : Table) (v : Vals) (k : Bytes) : Prop :=
  if tb.key = [] then ∃ id, k = hiddenKey id else primaryKey tb v = .ok k

structure RowOk (tb : Table) (k row : Bytes) (v : Vals) : Prop where
  decoded : rowDecode tb row = .ok v
  whole : Whole tb v
  key : KeyOf tb v k
  short : k.length ≤ GS_MAX_KEY
  reads : ∀ x ∈ tb.idx, IndexReads tb x v
  entry : ∀ x ∈ tb.idx, (indexEntry tb x v k).isSome

def IndexOk (t : Trees) (tb : Table) (m : Tree) (x : Index) : Prop :=
  ∃ i, t x.tree = some i ∧ Indexed (entryOf tb x) (leadsTo tb x) m i ∧ ∀ a b, i.get a = some b → a.length ≤ GS_MAX_KEY

structure TableHolds (t : Trees) (tb : Table) (m : Tree) : Prop where
  ok : tb.Ok
  keyPos : ∀ i ∈ tb.key, i < tb.ncols
  idxPos : ∀ x ∈ tb.idx, ∀ p ∈ x.cols, p.1 < tb.ncols
  serial : tb.hasSerial = true → (t tb.serialTree).isSome
  rows : t tb.rowsTree = some m
  row : ∀ k row, m.get k = some row → ∃ v, RowOk tb k row v
  index : ∀ x ∈ tb.idx, IndexOk t tb m x

def Table.treeNames (tb : Table) : List Bytes :=
  tb.rowsTree :: ((if tb.hasSerial then [tb.serialTree] else []) ++ tb.idx.map Index.tree)

section
variable {t t' : Trees} {tb tb' : Table} {m : Tree} {x : Index} {k row : Bytes} {v v' : Vals} {n : Bytes}

theorem mem_treeNames : n ∈ tb.treeNames ↔
    n = tb.rowsTree ∨ (tb.hasSerial = true ∧ n = tb.serialTree) ∨ ∃ x ∈ tb.idx, n = x.tree := by
  have hidx : n ∈ tb.idx.map Index.tree ↔ ∃ x ∈ tb.idx, n = x.tree := by
    rw [List.mem_map]
    constructor
    · rintro ⟨x, hx, rfl⟩
      exact ⟨x, hx, rfl⟩
    · rintro ⟨x, hx, rfl⟩
      exact ⟨x, hx, rfl⟩
  rw [Table.treeNames, List.mem_cons, List.mem_append, hidx]
  by_cases hs : tb.hasSerial = true
  · simp [hs]
  · simp [hs]

theorem TableHolds.present (h : TableHolds t tb m) (hn : n ∈ tb.treeNames) : (t n).isSome := by
  rcases mem_treeNames.1 hn with rfl | ⟨hs, rfl⟩ | ⟨x, hx, rfl⟩
  · simp [h.rows]
  · exact h.serial hs
  · obtain ⟨i, hi, -⟩ := h.index x hx
    simp [hi]

/-- A table stands on its own trees alone. -/
theorem TableHolds.frame (h : TableHolds t tb m) (hn : ∀ n ∈ tb.treeNames, t' n = t n) : TableHolds t' tb m where
  ok := h.ok
  keyPos := h.keyPos
  idxPos := h.idxPos
  serial hs := by
    rw [hn _ (mem_treeNames.2 (.inr (.inl ⟨hs, rfl⟩)))]
    exact h.serial hs
  rows := by
    rw [hn _ (mem_treeNames.2 (.inl rfl))]
    exact h.rows
  row := h.row
  index x hx := by
    obtain ⟨i, hi, hheld⟩ := h.index x hx
    exact ⟨i, by rw [hn _ (mem_treeNames.2 (.inr (.inr ⟨x, hx, rfl⟩)))]; exact hi, hheld⟩

theorem RowOk.entryOf_eq (h : RowOk tb k row v) :
    entryOf tb x k row = (indexEntry tb x v k).map (fun e => (e.key, e.value k)) := by
  rw [entryOf, h.decoded]

theorem RowOk.unique (h : RowOk tb k row v) (h' : RowOk tb k row v') : v = v' := by
  have hd := h.decoded
  rw [h'.decoded] at hd
  exact (Except.ok.inj hd).symm

theorem leadsTo_entry {e : Entry} (hw : Whole tb v) (hr : IndexReads tb x v) (he : indexEntry tb x v k = some e) :
    leadsTo tb x (e.key, e.value k) = some k := by
  rw [leadsTo, indexRowkey_entry hw.values hr he]

/-! ## A record that changes reads the same rows -/

def SameAt (tb tb' : Table) (v v' : Vals) (i : Nat) : Prop := tb'.col i = tb.col i ∧ v'.getD i [] = v.getD i []

theorem primaryKeyFrom_same : ∀ {key : List Nat} {k k' : Bytes}, (∀ i ∈ key, SameAt tb tb' v v' i) →
    primaryKeyFrom tb v key k = .ok k' → primaryKeyFrom tb' v' key k = .ok k'
  | [], _, _, _, h => h
  | i :: key, k, k', hs, h => by
    obtain ⟨hc, hv⟩ := hs i (List.mem_cons_self ..)
    rw [primaryKeyFrom] at h ⊢
    rw [hc, hv]
    split at h
    · exact primaryKeyFrom_same (fun j hj => hs j (List.mem_cons_of_mem _ hj)) h
    · cases h

theorem indexColumns_same : ∀ {cols : List (Nat × Bool)} {k : Bytes} {absent : Bool},
    (∀ p ∈ cols, SameAt tb tb' v v' p.1) → indexColumns tb' v' cols k absent = indexColumns tb v cols k absent
  | [], _, _, _ => rfl
  | (i, desc) :: cols, k, absent, hs => by
    obtain ⟨hc, hv⟩ := hs (i, desc) (List.mem_cons_self ..)
    dsimp only at hc hv
    rw [indexColumns, indexColumns, hc, hv]
    split
    · rfl
    · exact indexColumns_same (fun p hp => hs p (List.mem_cons_of_mem _ hp))

theorem indexEntry_same (hs : ∀ p ∈ x.cols, SameAt tb tb' v v' p.1) : indexEntry tb' x v' k = indexEntry tb x v k := by
  rw [indexEntry, indexEntry, indexColumns_same hs]

theorem indexReads_same (hs : ∀ p ∈ x.cols, SameAt tb tb' v v' p.1) (h : IndexReads tb x v) : IndexReads tb' x v' := by
  intro p hp
  obtain ⟨hc, hv⟩ := hs p hp
  rw [hc, hv]
  exact h p hp

theorem rowDecodeFrom_missing {count : Nat} {l : Bytes} : ∀ (s : List Column) {i : Nat}, count ≤ i →
    rowDecodeFrom tb count i s l = .ok (s.map Column.missing, l)
  | [], _, _ => rfl
  | c :: s, i, hi => by
    rw [rowDecodeFrom, if_neg (by omega), rowDecodeFrom_missing s (by omega)]
    rfl

theorem rowDecodeFrom_extends {count : Nat} (s : List Column) : ∀ {cols : List Column} {i : Nat} {l r : Bytes}
    {v : Vals}, count ≤ i + cols.length → rowDecodeFrom tb count i cols l = .ok (v, r) →
    rowDecodeFrom tb' count i (cols ++ s) l = .ok (v ++ s.map Column.missing, r)
  | [], i, l, r, v, hi, h => by
    cases h
    exact rowDecodeFrom_missing s (by simpa using hi)
  | c :: cols, i, l, r, v, hi, h => by
    rw [List.length_cons] at hi
    rw [List.cons_append]
    rw [rowDecodeFrom] at h ⊢
    split_ifs at h ⊢ with hlt
    · split at h
      · cases h
      split at h
      · cases h
      rename_i hrest
      cases h
      rw [rowDecodeFrom_extends s (by omega) hrest]
      rfl
    · split at h
      · cases h
      rename_i hrest
      cases h
      rw [rowDecodeFrom_extends s (by omega) hrest]
      rfl

/-- A row written before columns were added reads their defaults. -/
theorem rowDecode_extends (hcols : tb'.cols = tb.cols ++ s) (h : rowDecode tb row = .ok v) :
    rowDecode tb' row = .ok (v ++ s.map Column.missing) := by
  unfold rowDecode at h ⊢
  rcases hformat : leGet 1 row with _ | ⟨fmt, l⟩ <;> rw [hformat] at h
  · cases h
  dsimp only at h ⊢
  rcases hcount : ulebGet 10 0 0 l with _ | ⟨count, l'⟩ <;> rw [hcount] at h
  · cases h
  dsimp only at h ⊢
  have hn : tb'.ncols = tb.ncols + s.length := by rw [Table.ncols, hcols, List.length_append, Table.ncols]
  split_ifs at h ⊢ with hfmt hlt
  · omega
  · split at h <;> cases h
    rename_i hrest
    have hle : count ≤ 0 + tb.cols.length := (not_lt.1 ‹¬tb.ncols < count›).trans (Nat.zero_add _).ge
    rw [hcols, rowDecodeFrom_extends s hle hrest]

/-- What a record may change and still read its rows: its name, its version, its indexes and columns at its end. -/
structure Extends (tb tb' : Table) (s : List Column) : Prop where
  id : tb'.id = tb.id
  cols : tb'.cols = tb.cols ++ s
  key : tb'.key = tb.key
  missing : ∀ c ∈ s, ∃ w, V3.walkWhole c.missing = some w

theorem Extends.sameAt (h : Extends tb tb' s) (hw : v.length = tb.ncols) {i : Nat} (hi : i < tb.ncols) :
    SameAt tb tb' v (v ++ s.map Column.missing) i := by
  constructor
  · rw [Table.col, Table.col, h.cols, List.getD_append _ _ _ _ hi]
  · rw [List.getD_append _ _ _ _ (by omega)]

theorem Whole.extends (h : Whole tb v) (he : Extends tb tb' s) : Whole tb' (v ++ s.map Column.missing) := by
  refine ⟨?_, fun y hy => ?_⟩
  · rw [List.length_append, List.length_map, h.length, Table.ncols, Table.ncols, he.cols, List.length_append]
  · rcases List.mem_append.1 hy with hy | hy
    · exact h.values y hy
    · obtain ⟨c, hc, rfl⟩ := List.mem_map.1 hy
      exact he.missing c hc

theorem KeyOf.extends (h : KeyOf tb v k) (hw : v.length = tb.ncols) (he : Extends tb tb' s)
    (hkey : ∀ i ∈ tb.key, i < tb.ncols) : KeyOf tb' (v ++ s.map Column.missing) k := by
  unfold KeyOf at h ⊢
  rw [he.key]
  split_ifs at h ⊢ with hnil
  · exact h
  · unfold primaryKey at h ⊢
    rw [he.key]
    exact primaryKeyFrom_same (fun i hi => he.sameAt hw (hkey i hi)) h

theorem RowOk.extends (h : RowOk tb k row v) (he : Extends tb tb' s) (hkey : ∀ i ∈ tb.key, i < tb.ncols)
    (hpos : ∀ x ∈ tb.idx, ∀ p ∈ x.cols, p.1 < tb.ncols)
    (hidx : ∀ x ∈ tb'.idx, x ∈ tb.idx ∨ IndexReads tb' x (v ++ s.map Column.missing) ∧
      (indexEntry tb' x (v ++ s.map Column.missing) k).isSome) :
    RowOk tb' k row (v ++ s.map Column.missing) where
  decoded := rowDecode_extends he.cols h.decoded
  whole := h.whole.extends he
  key := h.key.extends h.whole.length he hkey
  short := h.short
  reads x hx := by
    rcases hidx x hx with hx | ⟨hr, -⟩
    · exact indexReads_same (fun p hp => he.sameAt h.whole.length (hpos x hx p hp)) (h.reads x hx)
    · exact hr
  entry x hx := by
    rcases hidx x hx with hx | ⟨-, hsome⟩
    · rw [indexEntry_same (fun p hp => he.sameAt h.whole.length (hpos x hx p hp))]
      exact h.entry x hx
    · exact hsome

/-- **A record that extends another holds the same rows**; an index it did not have is made from them. -/
theorem TableHolds.extends (h : TableHolds t tb m) (he : Extends tb tb' s) (hok : tb'.Ok)
    (hserial : tb'.hasSerial = true → (t' tb'.serialTree).isSome) (hrows : t' tb.rowsTree = t tb.rowsTree)
    (hpos : ∀ x ∈ tb'.idx, ∀ p ∈ x.cols, p.1 < tb'.ncols)
    (hidx : ∀ x ∈ tb'.idx, x ∈ tb.idx ∧ t' x.tree = t x.tree ∨
      (∀ k row v, m.get k = some row → rowDecode tb' row = .ok v → IndexReads tb' x v ∧ (indexEntry tb' x v k).isSome) ∧
      IndexOk t' tb' m x) :
    TableHolds t' tb' m := by
  have hrow : ∀ k row v, m.get k = some row → RowOk tb k row v → RowOk tb' k row (v ++ s.map Column.missing) := by
    intro k row v hk hv
    refine hv.extends he h.keyPos h.idxPos (fun x hx => ?_)
    rcases hidx x hx with ⟨hx, -⟩ | ⟨hnew, -⟩
    · exact .inl hx
    · exact .inr (hnew k row _ hk (rowDecode_extends he.cols hv.decoded))
  refine ⟨hok, fun i hi => ?_, hpos, hserial, ?_, fun k row hk => ?_, fun x hx => ?_⟩
  · have hlt := h.keyPos i (he.key ▸ hi)
    rw [Table.ncols, he.cols, List.length_append]
    unfold Table.ncols at hlt
    omega
  · rw [← h.rows, ← hrows, Table.rowsTree, he.id, Table.rowsTree]
  · obtain ⟨v, hv⟩ := h.row k row hk
    exact ⟨_, hrow k row v hk hv⟩
  · rcases hidx x hx with ⟨hx', htree⟩ | ⟨-, hnew⟩
    · obtain ⟨i, hi, hheld, hshort⟩ := h.index x hx'
      refine ⟨i, htree.trans hi, hheld.congr (fun k row hk => ?_) (fun k row e hk he' => ?_), hshort⟩
      · obtain ⟨v, hv⟩ := h.row k row hk
        rw [(hrow k row v hk hv).entryOf_eq, hv.entryOf_eq,
          indexEntry_same (fun p hp => he.sameAt hv.whole.length (h.idxPos x hx' p hp))]
      · obtain ⟨v, hv⟩ := h.row k row hk
        have hv' := hrow k row v hk hv
        rw [hv'.entryOf_eq] at he'
        obtain ⟨e', hentry, rfl⟩ := Option.map_eq_some_iff.1 he'
        exact leadsTo_entry hv'.whole (hv'.reads x hx) hentry
    · exact hnew

end

/-! ## Every table -/

/-- A table's record by its name. -/
def Db.table (db : Db) (name : Bytes) : Option Table := db.catalog.bind (fun c => c.get name)

def TableTree (n : Bytes) : Prop := ∃ letter ∈ ['r', 'i', 'q'], ∃ id, n = treeName letter id

structure Agrees (db : Db) : Prop where
  shared : db.catalog.isSome → (db.trees META).isSome
  named : ∀ name tb, db.table name = some tb → tb.name = name ∧ name.length ≤ MAX_NAME
  holds : ∀ name tb, db.table name = some tb → ∃ m, TableHolds db.trees tb m
  apart : ∀ name tb name' tb' n, db.table name = some tb → db.table name' = some tb' → n ∈ tb.treeNames →
    n ∈ tb'.treeNames → name = name'
  owned : ∀ n, TableTree n → (db.trees n).isSome → ∃ name tb, db.table name = some tb ∧ n ∈ tb.treeNames

theorem treeNames_ne_META {tb : Table} {n : Bytes} (h : n ∈ tb.treeNames) : n ≠ META := by
  rcases mem_treeNames.1 h with rfl | ⟨-, rfl⟩ | ⟨x, -, rfl⟩
  · exact (META_ne_treeName 'r' tb.id).symm
  · exact (META_ne_treeName 'q' tb.id).symm
  · exact (META_ne_treeName 'i' x.id).symm

theorem tableTree_ne_META {n : Bytes} (h : TableTree n) : n ≠ META := by
  obtain ⟨letter, -, id, rfl⟩ := h
  exact (META_ne_treeName letter id).symm

theorem Agrees.same {db db' : Db} (h : Agrees db) (htable : ∀ n, db'.table n = db.table n)
    (hshared : db'.catalog.isSome → (db'.trees META).isSome) (hsame : ∀ n, n ≠ META → db'.trees n = db.trees n) :
    Agrees db' where
  shared := hshared
  named name tb htb := h.named name tb (htable name ▸ htb)
  holds name tb htb := by
    obtain ⟨m, hm⟩ := h.holds name tb (htable name ▸ htb)
    exact ⟨m, hm.frame (fun n hn => hsame n (treeNames_ne_META hn))⟩
  apart name tb name' tb' n htb htb' := h.apart name tb name' tb' n (htable name ▸ htb) (htable name' ▸ htb')
  owned n hn hsome := by
    rw [hsame n (tableTree_ne_META hn)] at hsome
    obtain ⟨name, tb, htb, hmem⟩ := h.owned n hn hsome
    exact ⟨name, tb, (htable name).trans htb, hmem⟩

/-- **One record replaced**: it holds its rows, its trees are those the old one had or are new, and those it gives up
are gone. -/
theorem Agrees.replace {db db' : Db} (h : Agrees db) {name newName : Bytes} {tb' : Table} {m' : Tree}
    (hfree : newName = name ∨ db.table newName = none)
    (htable : ∀ n, db'.table n = if n = newName then some tb' else if n = name then none else db.table n)
    (hname : tb'.name = newName ∧ newName.length ≤ MAX_NAME) (hholds : TableHolds db'.trees tb' m')
    (hshared : (db'.trees META).isSome)
    (hsame : ∀ n, (∀ tb, db.table name = some tb → n ∉ tb.treeNames) → n ∉ tb'.treeNames → n ≠ META →
      db'.trees n = db.trees n)
    (hfresh : ∀ n ∈ tb'.treeNames, (∃ tb, db.table name = some tb ∧ n ∈ tb.treeNames) ∨ db.trees n = none)
    (hgone : ∀ tb, db.table name = some tb → ∀ n ∈ tb.treeNames, n ∈ tb'.treeNames ∨ db'.trees n = none) :
    Agrees db' := by
  -- another table's trees are neither the old record's nor the new one's
  have hother : ∀ name₂ tb₂, db.table name₂ = some tb₂ → name₂ ≠ name → ∀ n ∈ tb₂.treeNames,
      (∀ tb, db.table name = some tb → n ∉ tb.treeNames) ∧ n ∉ tb'.treeNames := by
    intro name₂ tb₂ htb₂ hne n hn
    have hold : ∀ tb, db.table name = some tb → n ∉ tb.treeNames :=
      fun tb htb hmem => hne (h.apart name₂ tb₂ name tb n htb₂ htb hn hmem)
    refine ⟨hold, fun hmem => ?_⟩
    rcases hfresh n hmem with ⟨tb, htb, hmem'⟩ | hnone
    · exact hold tb htb hmem'
    · obtain ⟨m₂, hm₂⟩ := h.holds name₂ tb₂ htb₂
      have hsome := hm₂.present hn
      rw [hnone] at hsome
      cases hsome
  -- a record of the new catalog is the new one, or one that was there under another name
  have hcases : ∀ name₂ tb₂, db'.table name₂ = some tb₂ →
      (name₂ = newName ∧ tb₂ = tb') ∨ (name₂ ≠ name ∧ db.table name₂ = some tb₂) := by
    intro name₂ tb₂ htb₂
    rw [htable] at htb₂
    split_ifs at htb₂ with h1 h2
    · exact .inl ⟨h1, (Option.some.inj htb₂).symm⟩
    · exact .inr ⟨h2, htb₂⟩
  refine ⟨fun _ => hshared, fun name₂ tb₂ htb₂ => ?_, fun name₂ tb₂ htb₂ => ?_,
    fun name₂ tb₂ name₃ tb₃ n htb₂ htb₃ hn₂ hn₃ => ?_, fun n hn hsome => ?_⟩
  · rcases hcases name₂ tb₂ htb₂ with ⟨rfl, rfl⟩ | ⟨-, hold⟩
    · exact hname
    · exact h.named name₂ tb₂ hold
  · rcases hcases name₂ tb₂ htb₂ with ⟨rfl, rfl⟩ | ⟨hne, hold⟩
    · exact ⟨m', hholds⟩
    · obtain ⟨m₂, hm₂⟩ := h.holds name₂ tb₂ hold
      refine ⟨m₂, hm₂.frame (fun n hn => ?_)⟩
      obtain ⟨h1, h2⟩ := hother name₂ tb₂ hold hne n hn
      exact hsame n h1 h2 (treeNames_ne_META hn)
  · rcases hcases name₂ tb₂ htb₂ with ⟨rfl, rfl⟩ | ⟨hne₂, hold₂⟩ <;>
      rcases hcases name₃ tb₃ htb₃ with ⟨rfl, rfl⟩ | ⟨hne₃, hold₃⟩
    · rfl
    · exact absurd hn₂ (hother name₃ tb₃ hold₃ hne₃ n hn₃).2
    · exact absurd hn₃ (hother name₂ tb₂ hold₂ hne₂ n hn₂).2
    · exact h.apart name₂ tb₂ name₃ tb₃ n hold₂ hold₃ hn₂ hn₃
  · by_cases hnew : n ∈ tb'.treeNames
    · exact ⟨newName, tb', by rw [htable, if_pos rfl], hnew⟩
    have hold : ∀ tb, db.table name = some tb → n ∉ tb.treeNames := by
      intro tb htb hmem
      rcases hgone tb htb n hmem with hmem' | hnone
      · exact hnew hmem'
      · rw [hnone] at hsome
        cases hsome
    rw [hsame n hold hnew (tableTree_ne_META hn)] at hsome
    obtain ⟨name₂, tb₂, htb₂, hmem⟩ := h.owned n hn hsome
    have hne : name₂ ≠ name := by
      rintro rfl
      exact hold tb₂ htb₂ hmem
    have hne' : name₂ ≠ newName := by
      rintro rfl
      rcases hfree with rfl | hnone
      · exact hne rfl
      · rw [hnone] at htb₂
        cases htb₂
    exact ⟨name₂, tb₂, by rw [htable, if_neg hne', if_neg hne]; exact htb₂, hmem⟩

end Gsql
end Gbasic
