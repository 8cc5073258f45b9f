import Gbasic.TableCodec
import Gbasic.TableWrites
/-!
# TableAtomic — when a refused row operation leaves no trace

The checks look at types, absences and duplicates, and what follows them is written one tree after another: a key past
the engine's limit is met by a write, after the row is in.  `InsertFits`, `UpdateFits` and `DeleteFits` are what the
checks leave out; a row operation is all or nothing exactly where they hold.
-/
namespace Gbasic
namespace Gsql

open Lsm (Status GS_MAX_KEY)
open Engine (Trees Bytes Room Present Vacant)
open Key (SER_NUMBER SER_STRING)
open Engine (put_room set_of_ne set_self get_eq_ok)

variable {tb : Table} {t : Trees} {rowkey oldrow : Bytes} {c : Checked} {es olde newe : List (Index × Entry)}
  {u : Update} {oldv : Vals}

def SameAnswers (tb : Table) (t t' : Trees) : Prop :=
  (∀ key, Engine.get t' tb.rowsTree key = Engine.get t tb.rowsTree key) ∧
    ∀ x ∈ tb.idx, ∀ key, Engine.get t' x.tree key = Engine.get t x.tree key

/-- An operation that answers anything but OK leaves the table's trees as they were. -/
def AllOrNothing {α : Type} (tb : Table) (t : Trees) (r : Except Error α × Trees) : Prop :=
  ∀ e, r.1 = .error e → SameAnswers tb t r.2

/-- Where the row goes in, so does each of its entries, and a hidden id's successor. -/
def InsertFits (t : Trees) (tb : Table) (vals : List (Option Bytes)) : Prop :=
  ∀ c, insertChecks t tb vals = .ok c → Vacant t tb.rowsTree c.key →
    (∀ p ∈ c.entries, Room t p.1.tree p.2.key) ∧ (tb.key = [] → (t META).isSome)

/-- A row that moves has a key within the limit, and for each index whose entry changes the old entry is there and the
new one's key is within it. -/
def UpdateFits (t : Trees) (tb : Table) (rowkey : Bytes) (vals : List (Option Bytes)) : Prop :=
  ∀ u, updateChecks t tb rowkey vals = .ok u →
    (u.key ≠ rowkey → u.key.length ≤ GS_MAX_KEY) ∧ ∀ c ∈ u.changes, ChangeFits (u.key ≠ rowkey) t c

/-- Where the first index has the row's entry, so do the others. -/
def DeleteFits (t : Trees) (tb : Table) (rowkey : Bytes) : Prop :=
  ∀ p es, deleteChecks t tb rowkey = .ok (p :: es) → Present t p.1.tree p.2.key →
    ∀ q ∈ es, Present t q.1.tree q.2.key

theorem SameAnswers.refl (tb : Table) (t : Trees) : SameAnswers tb t t := ⟨fun _ => rfl, fun _ _ _ => rfl⟩

theorem get_same {t' : Trees} {tree : Bytes} (h : t' tree = t tree) (key : Bytes) :
    Engine.get t' tree key = Engine.get t tree key := by
  unfold Engine.get Engine.treeFind
  rw [h]

/-! ## Inserting -/

theorem insertChecks_entries {vals : List (Option Bytes)} (h : insertChecks t tb vals = .ok c) :
    entriesBuild tb c.vals c.key = .ok c.entries := by
  unfold insertChecks at h
  split at h
  · cases h
  split at h
  · cases h
  split at h
  · cases h
  rename_i hes
  split at h
  · cases h
  cases h
  exact hes

theorem nodup_entries (hok : tb.Ok) {v : Vals} {k : Bytes} (h : entriesBuild tb v k = .ok es) :
    (es.map (fun p => p.1.tree)).Nodup := by
  have hmap : es.map (fun p => p.1.tree) = (es.map (·.1)).map Index.tree := by rw [List.map_map]; rfl
  rw [hmap, entriesBuild_indexes h]
  exact hok.trees

theorem rows_not_entries (tb : Table) (es : List (Index × Entry)) : tb.rowsTree ∉ es.map (fun p => p.1.tree) := by
  intro h
  obtain ⟨p, -, hp⟩ := List.mem_map.1 h
  exact rowsTree_ne_tree tb p.1 hp.symm

theorem insertWrites_refused (h : ¬ Vacant t tb.rowsTree c.key) : (insertWrites t tb c).2 = t := by
  obtain ⟨rc, hrc, hput⟩ := Engine.put_new_refused tb.rowsTree_short h (rowEncode tb c.vals)
  rw [insertWrites, hput]
  cases rc <;> first | exact absurd rfl hrc | rfl

theorem metaTableKey_short (tb : Table) : (metaTableKey tb).length ≤ GS_MAX_KEY := by
  rw [metaTableKey, length_bePut]
  decide

theorem metaPut_ok (t : Trees) (tb : Table) (v : Nat) :
    (metaPut t (metaTableKey tb) v).1 = .ok () ↔ (t META).isSome := by
  by_cases h : (t META).isSome
  · obtain ⟨m, hm⟩ := Option.isSome_iff_exists.1 h
    rw [metaPut, put_room (by decide) (metaTableKey_short tb) hm]
    exact ⟨fun _ => h, fun _ => rfl⟩
  · obtain ⟨rc, hrc, hput⟩ := Engine.put_refused META_short
      (show ¬ Room t META (metaTableKey tb) from fun hr => h hr.2) (lePut 8 v)
    rw [metaPut, hput]
    constructor
    · intro hok
      cases rc <;> first | exact absurd rfl hrc | cases hok
    · intro hs
      exact absurd hs h

theorem metaPut_same {key n : Bytes} {v : Nat} (hn : n ≠ META) : (metaPut t key v).2 n = t n := by
  by_cases h : Room t META key
  · obtain ⟨m, hm⟩ := Option.isSome_iff_exists.1 h.2
    rw [metaPut, put_room (by decide) h.1 hm]
    exact set_of_ne t hn _
  · obtain ⟨rc, hrc, hput⟩ := Engine.put_refused META_short h (lePut 8 v)
    rw [metaPut, hput]
    cases rc <;> rfl

theorem insertRest_ok (hnd : (c.entries.map (fun p => p.1.tree)).Nodup) : (∃ k, (insertRest t tb c).1 = .ok k) ↔
      (∀ p ∈ c.entries, Room t p.1.tree p.2.key) ∧ (tb.key = [] → (t META).isSome) := by
  have hmeta : META ∉ c.entries.map (fun p => p.1.tree) := by
    intro hmem
    obtain ⟨p, -, hp⟩ := List.mem_map.1 hmem
    exact META_ne_treeName 'i' p.1.id hp.symm
  have hsame := inTurn_same (put_writes c.key) c.entries t META hmeta
  have hok := inTurn_ok (put_writes c.key) c.entries t hnd
  rw [← hok]
  unfold insertRest putEntries
  rcases hput : inTurn (fun t p => putEntry t p.1 p.2 c.key) t c.entries with ⟨_ | ⟨⟩, t₂⟩
  · rw [hput]
    simp
  · rw [hput] at hsame ⊢
    dsimp only at hsame ⊢
    by_cases hkey : tb.key = []
    · rw [if_pos hkey, ← hsame, ← metaPut_ok t₂ tb (c.rowid + 1)]
      rcases metaPut t₂ (metaTableKey tb) (c.rowid + 1) with ⟨_ | ⟨⟩, t₃⟩
      · simp [hkey]
      · simp
    · simp [hkey]

theorem insertRest_rows {r : Table} : (insertRest t tb c).2 r.rowsTree = t r.rowsTree := by
  have hsame := inTurn_same (put_writes c.key) c.entries t r.rowsTree (rows_not_entries r c.entries)
  unfold insertRest putEntries
  rcases hput : inTurn (fun t p => putEntry t p.1 p.2 c.key) t c.entries with ⟨_ | ⟨⟩, t₂⟩
  · rw [hput] at hsame ⊢
    exact hsame
  · rw [hput] at hsame ⊢
    dsimp only at hsame ⊢
    split_ifs
    · have hmeta : (metaPut t₂ (metaTableKey tb) (c.rowid + 1)).2 r.rowsTree = t₂ r.rowsTree :=
        metaPut_same (META_ne_treeName 'r' r.id).symm
      rcases hm : metaPut t₂ (metaTableKey tb) (c.rowid + 1) with ⟨_ | ⟨⟩, t₃⟩ <;> rw [hm] at hmeta
      · exact hmeta.trans hsame
      · exact hmeta.trans hsame
    · exact hsame

theorem insert_allOrNothing (t : Trees) (hok : tb.Ok) (vals : List (Option Bytes)) :
    AllOrNothing tb t (rowInsert t tb vals) ↔ InsertFits t tb vals := by
  unfold AllOrNothing InsertFits rowInsert
  rcases hc : insertChecks t tb vals with e | c
  · simp [SameAnswers.refl]
  dsimp only
  have hnd := nodup_entries hok (insertChecks_entries hc)
  by_cases hv : Vacant t tb.rowsTree c.key
  · obtain ⟨hk, m, hm, hg⟩ := id hv
    let t₁ := t.set tb.rowsTree (some (m.put c.key (rowEncode tb c.vals)))
    have hwrites : insertWrites t tb c = insertRest t₁ tb c := by
      rw [insertWrites, Engine.put_vacant tb.rowsTree_short hk hm hg]
    have hother : ∀ n, n ≠ tb.rowsTree → t₁ n = t n := fun n hn => set_of_ne t hn _
    have hrest : (∃ k, (insertRest t₁ tb c).1 = .ok k) ↔
        (∀ p ∈ c.entries, Room t p.1.tree p.2.key) ∧ (tb.key = [] → (t META).isSome) := by
      rw [insertRest_ok hnd, hother META (META_ne_treeName 'r' tb.id)]
      have hroom : ∀ p : Index × Entry, Room t₁ p.1.tree p.2.key ↔ Room t p.1.tree p.2.key :=
        fun p => room_own (hother _ (rowsTree_ne_tree tb p.1).symm)
      simp only [hroom]
    rw [hwrites]
    constructor
    · intro hall c' hc' _
      cases hc'
      rw [← hrest]
      rcases hr : (insertRest t₁ tb c).1 with e | k
      · -- the row is in, and answers what it did not
        have hnow : (insertRest t₁ tb c).2 tb.rowsTree = some (m.put c.key (rowEncode tb c.vals)) :=
          insertRest_rows.trans (set_self ..)
        have hget := (hall e hr).1 c.key
        have hin : Engine.get (insertRest t₁ tb c).2 tb.rowsTree c.key = .ok (rowEncode tb c.vals) :=
          (get_eq_ok tb.rowsTree_short).2 ⟨hk, _, hnow, SortedMap.get_put_self ..⟩
        rw [hin, eq_comm, get_eq_ok tb.rowsTree_short] at hget
        obtain ⟨-, m', hm', hg'⟩ := hget
        rw [hm] at hm'
        cases hm'
        rw [hg] at hg'
        cases hg'
      · exact ⟨k, rfl⟩
    · intro hfits e he
      obtain ⟨k, hk'⟩ := hrest.2 (hfits c rfl hv)
      rw [he] at hk'
      cases hk'
  · constructor
    · intro _ c' hc' hv'
      cases hc'
      exact absurd hv' hv
    · intro _ e _
      rw [insertWrites_refused hv]
      exact SameAnswers.refl tb t

/-! ## Deleting -/

theorem rowGet_ok {row : Bytes} (h : rowGet t tb rowkey = .ok row) :
    rowkey.length ≤ GS_MAX_KEY ∧ ∃ m, t tb.rowsTree = some m ∧ m.get rowkey = some row := by
  rw [← get_eq_ok tb.rowsTree_short]
  unfold rowGet at h
  split at h <;> cases h
  assumption

theorem deleteChecks_ok (h : deleteChecks t tb rowkey = .ok es) :
    ∃ row v, rowGet t tb rowkey = .ok row ∧ rowDecode tb row = .ok v ∧ entriesBuild tb v rowkey = .ok es := by
  unfold deleteChecks at h
  split at h
  · cases h
  rename_i row hrow
  split at h
  · cases h
  rename_i v hv
  exact ⟨row, v, hrow, hv, h⟩

theorem rowDelete_ok (h : deleteChecks t tb rowkey = .ok es) :
    ((rowDelete t tb rowkey).1 = .ok () ↔ (delEntries tb t es).1 = .ok ()) ∧
      ∀ e, (rowDelete t tb rowkey).1 = .error e → (rowDelete t tb rowkey).2 = (delEntries tb t es).2 := by
  obtain ⟨row, v, hrow, -, -⟩ := deleteChecks_ok h
  obtain ⟨hk, m, hm, hg⟩ := rowGet_ok hrow
  have hsame : (delEntries tb t es).2 tb.rowsTree = t tb.rowsTree :=
    inTurn_same (del_writes tb) es t tb.rowsTree (rows_not_entries tb es)
  unfold rowDelete
  rw [h]
  dsimp only
  rcases hdel : delEntries tb t es with ⟨_ | ⟨⟩, t₁⟩
  · simp
  · rw [hdel] at hsame
    dsimp only at hsame ⊢
    rw [Engine.del_present tb.rowsTree_short hk (hsame.trans hm) (by simp [hg])]
    simp

theorem delete_allOrNothing (t : Trees) (hok : tb.Ok) (rowkey : Bytes) :
    AllOrNothing tb t (rowDelete t tb rowkey) ↔ DeleteFits t tb rowkey := by
  unfold AllOrNothing DeleteFits
  rcases hes : deleteChecks t tb rowkey with e | es
  · unfold rowDelete
    rw [hes]
    simp [SameAnswers.refl]
  obtain ⟨hiff, hsame⟩ := rowDelete_ok hes
  obtain ⟨row, v, -, -, hbuild⟩ := deleteChecks_ok hes
  have hnd := nodup_entries hok hbuild
  have hall : (delEntries tb t es).1 = .ok () ↔ ∀ p ∈ es, Present t p.1.tree p.2.key :=
    inTurn_ok (del_writes tb) es t hnd
  cases es with
  | nil =>
    have hdone : (rowDelete t tb rowkey).1 = .ok () := hiff.2 rfl
    simp [hdone]
  | cons p es =>
    by_cases hp : Present t p.1.tree p.2.key
    · constructor
      · intro h q qs heq _ r hr
        cases heq
        by_contra hnot
        have herr : ∃ e, (rowDelete t tb rowkey).1 = .error e := by
          rcases hr' : (rowDelete t tb rowkey).1 with e | ⟨⟩
          · exact ⟨e, rfl⟩
          · exact absurd (hall.1 (hiff.1 hr') r (List.mem_cons_of_mem _ hr)) hnot
        obtain ⟨e, he⟩ := herr
        -- the first index's entry is out, and stays out
        obtain ⟨hk, m, hm, hg⟩ := id hp
        obtain ⟨x, hx⟩ := Option.isSome_iff_exists.1 hg
        have hfirst : delEntry t tb p.1 p.2 = (.ok (), t.set p.1.tree (some (m.del p.2.key))) := delEntry_tree hk hm hg
        rw [List.map_cons, List.nodup_cons] at hnd
        have hout : (rowDelete t tb rowkey).2 p.1.tree = some (m.del p.2.key) := by
          rw [hsame e he, delEntries, inTurn_cons_ok (by rw [hfirst]), inTurn_same (del_writes tb) es _ _ hnd.1, hfirst]
          exact set_self ..
        have hmem : p.1 ∈ tb.idx := by
          rw [← entriesBuild_indexes hbuild]
          exact List.mem_map_of_mem (List.mem_cons_self ..)
        have hget := (h e he).2 p.1 hmem p.2.key
        have hwas : Engine.get t p.1.tree p.2.key = .ok x := (get_eq_ok p.1.tree_short).2 ⟨hk, m, hm, hx⟩
        rw [hwas, get_eq_ok p.1.tree_short] at hget
        obtain ⟨-, m', hm', hx'⟩ := hget
        rw [hout] at hm'
        cases hm'
        rw [SortedMap.get_del_self] at hx'
        cases hx'
      · intro h e he
        have hdone := hiff.2 (hall.2 (fun q hq => ?_))
        · rw [hdone] at he
          cases he
        · rcases List.mem_cons.1 hq with rfl | hq
          · exact hp
          · exact h p es rfl hp q hq
    · constructor
      · intro _ q qs heq hq
        cases heq
        exact absurd hq hp
      · intro _ e he
        rw [hsame e he]
        obtain ⟨hleft, err, herr⟩ := delEntry_refused tb hp
        rw [delEntries, inTurn_cons_error herr, hleft]
        exact SameAnswers.refl tb t

/-! ## Updating -/

structure UpdateFound (t : Trees) (tb : Table) (rowkey : Bytes) (u : Update) (oldrow : Bytes) (oldv : Vals)
    (olde newe : List (Index × Entry)) : Prop where
  row : rowGet t tb rowkey = .ok oldrow
  decoded : rowDecode tb oldrow = .ok oldv
  whole : Whole tb u.vals
  key : updateKey t tb rowkey u.vals = .ok u.key
  olds : entriesBuild tb oldv rowkey = .ok olde
  news : entriesBuild tb u.vals u.key = .ok newe
  changes : u.changes = changesOf olde newe

theorem updateChecks_found {vals : List (Option Bytes)} (h : updateChecks t tb rowkey vals = .ok u) :
    ∃ oldrow oldv olde newe, UpdateFound t tb rowkey u oldrow oldv olde newe := by
  unfold updateChecks at h
  split at h
  · cases h
  rename_i oldrow hrow
  split at h
  · cases h
  rename_i oldv hdec
  split at h
  · cases h
  rename_i v hres
  split at h
  · cases h
  rename_i k hkey
  split at h
  · cases h
  rename_i olde holds
  split at h
  · cases h
  rename_i newe hnews
  split at h
  · cases h
  cases h
  exact ⟨oldrow, oldv, olde, newe, hrow, hdec, resolve_whole hres, hkey, holds, hnews, rfl⟩

theorem changesOf_index (h : newe.length = olde.length) : (changesOf olde newe).map Change.index = olde.map (·.1) := by
  rw [changesOf, List.map_map]
  have hfst : (Change.index ∘ fun p : (Index × Entry) × Index × Entry => ⟨p.1.1, p.1.2, p.2.2⟩) = (·.1) ∘ Prod.fst :=
    rfl
  rw [hfst, ← List.map_map, List.map_fst_zip (by omega)]

theorem changesOf_same : ∀ c ∈ changesOf es es, c.old = c.new := by
  intro c hc
  obtain ⟨⟨p, q⟩, hpq, rfl⟩ := List.mem_map.1 hc
  have hsame : p = q := by
    have hzip : ∀ l : List (Index × Entry), l.zip l = l.map (fun p => (p, p)) := by
      intro l
      induction l with
      | nil => rfl
      | cons a l ih => rw [List.zip_cons_cons, ih, List.map_cons]
    rw [hzip] at hpq
    obtain ⟨a, -, ha⟩ := List.mem_map.1 hpq
    cases ha
    rfl
  rw [hsame]

theorem UpdateFound.trees (hok : tb.Ok) (h : UpdateFound t tb rowkey u oldrow oldv olde newe) :
    (u.changes.map (fun c => c.index.tree)).Nodup := by
  have hlen : newe.length = olde.length := by
    have h1 := congrArg List.length (entriesBuild_indexes h.news)
    have h2 := congrArg List.length (entriesBuild_indexes h.olds)
    rw [List.length_map] at h1 h2
    omega
  have hmap : u.changes.map (fun c => c.index.tree) = (u.changes.map Change.index).map Index.tree := by
    rw [List.map_map]
    rfl
  rw [hmap, h.changes, changesOf_index hlen, entriesBuild_indexes h.olds]
  exact hok.trees

theorem UpdateFound.same (hok : tb.Ok) (h : UpdateFound t tb rowkey u oldrow oldv olde newe) (hkey : u.key = rowkey)
    (hrow : rowEncode tb u.vals = oldrow) : ∀ c ∈ u.changes, c.old = c.new := by
  have hn : tb.ncols < 2 ^ 64 := lt_of_le_of_lt hok.cols (by decide)
  have hdec := rowDecode_rowEncode hn h.whole
  rw [hrow, h.decoded] at hdec
  have hv : oldv = u.vals.map stored := Except.ok.inj hdec
  have hnews := h.news
  rw [hkey, ← entriesBuild_stored, ← hv, h.olds] at hnews
  rw [h.changes, ← Except.ok.inj hnews]
  exact changesOf_same

theorem updateKey_free {k : Bytes} {v : Vals} (h : updateKey t tb rowkey v = .ok k) (hne : k ≠ rowkey) {row : Bytes} :
    Engine.get t tb.rowsTree k ≠ .ok row := by
  unfold updateKey at h
  split at h
  · cases h
  rename_i k' _
  split_ifs at h with hmoved
  · unfold keyFree at h
    split at h
    · cases h
    rename_i hfree
    cases h
    split at hfree
    · cases hfree
    · rename_i hg
      rw [hg]
      intro hcon
      cases hcon
    · cases hfree
  · cases h
    exact absurd hne (by simpa using hmoved)

structure RowMoved (t : Trees) (tb : Table) (rowkey : Bytes) (u : Update) (t₁ : Trees) : Prop where
  other : ∀ n, n ≠ tb.rowsTree → t₁ n = t n
  /-- the old key's row is gone, or is the new row -/
  old : ∀ row, Engine.get t₁ tb.rowsTree rowkey = .ok row → u.key = rowkey ∧ row = rowEncode tb u.vals

theorem updateRow_cases (h : UpdateFound t tb rowkey u oldrow oldv olde newe) : ∃ t₁, RowMoved t tb rowkey u t₁ ∧
      ((u.key ≠ rowkey → u.key.length ≤ GS_MAX_KEY) ∧ updateRow t tb rowkey u = (.ok, t₁) ∨
        ¬ (u.key ≠ rowkey → u.key.length ≤ GS_MAX_KEY) ∧ ∃ rc, rc ≠ .ok ∧ updateRow t tb rowkey u = (rc, t₁)) := by
  obtain ⟨hk, m, hm, hg⟩ := rowGet_ok h.row
  have hn := tb.rowsTree_short
  unfold updateRow
  by_cases hmoved : u.key ≠ rowkey
  · rw [if_pos hmoved, Engine.del_present hn hk hm (by simp [hg])]
    dsimp only
    have hset : ∀ m', Engine.Trees.set t tb.rowsTree (some m') tb.rowsTree = some m' := fun m' => set_self ..
    by_cases hlen : u.key.length ≤ GS_MAX_KEY
    · have hnone : (m.del rowkey).get u.key = none := by
        rw [SortedMap.get_del_of_ne m hmoved]
        rcases hfree : m.get u.key with _ | row
        · rfl
        · exact absurd ((get_eq_ok hn).2 ⟨hlen, m, hm, hfree⟩) (updateKey_free h.key hmoved)
      refine ⟨_, ⟨fun n hne => ?_, fun row hrow => ?_⟩, .inl ⟨fun _ => hlen, Engine.put_vacant hn hlen (hset _) hnone⟩⟩
      · rw [set_of_ne _ hne, set_of_ne _ hne]
      · obtain ⟨-, m', hm', hrow'⟩ := (get_eq_ok hn).1 hrow
        rw [set_self] at hm'
        cases hm'
        rw [SortedMap.get_put_of_ne _ hmoved.symm, SortedMap.get_del_self] at hrow'
        cases hrow'
    · have hroom : ¬ Vacant (Engine.Trees.set t tb.rowsTree (some (m.del rowkey))) tb.rowsTree u.key :=
        fun hv => hlen hv.1
      obtain ⟨rc, hrc, hput⟩ := Engine.put_new_refused hn hroom (rowEncode tb u.vals)
      refine ⟨_, ⟨fun n hne => set_of_ne _ hne _, fun row hrow => ?_⟩,
        .inr ⟨fun hcon => hlen (hcon hmoved), rc, hrc, hput⟩⟩
      obtain ⟨-, m', hm', hrow'⟩ := (get_eq_ok hn).1 hrow
      rw [set_self] at hm'
      cases hm'
      rw [SortedMap.get_del_self] at hrow'
      cases hrow'
  · rw [if_neg hmoved, put_room hn hk hm]
    refine ⟨_, ⟨fun n hne => set_of_ne _ hne _, fun row hrow => ?_⟩, .inl ⟨fun hcon => absurd hcon hmoved, rfl⟩⟩
    obtain ⟨-, m', hm', hrow'⟩ := (get_eq_ok hn).1 hrow
    rw [set_self] at hm'
    cases hm'
    rw [SortedMap.get_put_self] at hrow'
    exact ⟨not_not.1 hmoved, (Option.some.inj hrow').symm⟩

theorem update_allOrNothing (t : Trees) (hok : tb.Ok) (rowkey : Bytes) (vals : List (Option Bytes)) :
    AllOrNothing tb t (rowUpdate t tb rowkey vals) ↔ UpdateFits t tb rowkey vals := by
  unfold AllOrNothing UpdateFits rowUpdate
  rcases hu : updateChecks t tb rowkey vals with e | u
  · simp [SameAnswers.refl]
  dsimp only
  obtain ⟨oldrow, oldv, olde, newe, hfound⟩ := updateChecks_found hu
  obtain ⟨hk, m, hm, hg⟩ := rowGet_ok hfound.row
  have hwas : Engine.get t tb.rowsTree rowkey = .ok oldrow := (get_eq_ok tb.rowsTree_short).2 ⟨hk, m, hm, hg⟩
  obtain ⟨t₁, hmoved, ⟨hlen, hrow⟩ | ⟨hlen, rc, hrc, hrow⟩⟩ := updateRow_cases hfound
  · rw [hrow]
    dsimp only
    have hnd := hfound.trees hok
    have hfits : ∀ c : Change, ChangeFits (u.key ≠ rowkey) t₁ c ↔ ChangeFits (u.key ≠ rowkey) t c :=
      fun c => (change_writes tb _ u.key).own _ _ c (hmoved.other _ (rowsTree_ne_tree tb c.index).symm)
    have hall := inTurn_ok (change_writes tb (u.key ≠ rowkey) u.key) u.changes t₁ hnd
    simp only [hfits] at hall
    have hrows : tb.rowsTree ∉ u.changes.map (fun c => c.index.tree) := by
      intro hmem
      obtain ⟨c, -, hc⟩ := List.mem_map.1 hmem
      exact rowsTree_ne_tree tb c.index hc.symm
    have hsame := inTurn_same (change_writes tb (u.key ≠ rowkey) u.key) u.changes t₁ tb.rowsTree hrows
    unfold updateEntries
    rcases hturn : inTurn (changeEntry tb (u.key ≠ rowkey) u.key) t₁ u.changes with ⟨err | ⟨⟩, t₂⟩
    · rw [hturn] at hall hsame
      dsimp only at hall hsame ⊢
      constructor
      · intro h u' hu'
        cases hu'
        refine ⟨hlen, ?_⟩
        by_contra hnot
        -- the row's place answers as before only where it is the same row, and then no entry changes
        have hget := (h err rfl).1 rowkey
        rw [get_same hsame, hwas] at hget
        obtain ⟨hkey, hrow'⟩ := hmoved.old oldrow hget
        exact hnot (fun c hc => .inl ⟨by simpa using hkey, hfound.same hok hkey hrow'.symm c hc⟩)
      · intro h
        obtain ⟨-, hc⟩ := h u rfl
        cases hall.2 hc
    · rw [hturn] at hall
      dsimp only at hall ⊢
      constructor
      · intro _ u' hu'
        cases hu'
        exact ⟨hlen, hall.1 rfl⟩
      · intro _ e he
        cases he
  · rw [hrow]
    constructor
    · intro h
      exfalso
      have hget : Engine.get t₁ tb.rowsTree rowkey = .ok oldrow := by
        rw [← hwas]
        cases rc <;> first | exact absurd rfl hrc | exact (h _ rfl).1 rowkey
      have hkey := (hmoved.old oldrow hget).1
      exact hlen (fun hne => absurd hkey hne)
    · intro h
      exact absurd (h u rfl).1 hlen

/-- **A refused row operation leaves no trace exactly where its later writes fit**: an insert's index entries (and
hidden id), an update's moved key and changed entries, and, for a delete, every entry once the first is there. -/
theorem allOrNothing_iff_fits (t : Trees) (tb : Table) (hok : tb.Ok) :
    (∀ vals, AllOrNothing tb t (rowInsert t tb vals) ↔ InsertFits t tb vals) ∧
    (∀ rowkey vals, AllOrNothing tb t (rowUpdate t tb rowkey vals) ↔ UpdateFits t tb rowkey vals) ∧
    ∀ rowkey, AllOrNothing tb t (rowDelete t tb rowkey) ↔ DeleteFits t tb rowkey :=
  ⟨insert_allOrNothing t hok, update_allOrNothing t hok, delete_allOrNothing t hok⟩

/-- A table of names by number, the names indexed. -/
def names : Table where
  name := text "names"
  id := 1
  version := 2
  cols := [⟨text "n", .integer, [], true, none, .none, [], 0, none⟩,
  ⟨text "name", .string, [], false, none, .none, [], 0, none⟩]
  key := [0]
  idx := [⟨text "byname", 2, [(1, false)], false⟩]

/-- Its trees, empty, and the shared ones. -/
def namesTrees : Trees := fun n =>
  if n = names.rowsTree ∨ n = treeName 'i' 2 ∨ n = CATALOG ∨ n = META then some .empty else none

/-- The row `1, "aaa…"` of `n` letters. -/
def nameRow (n : Nat) : List (Option Bytes) :=
  [some (byte SER_NUMBER :: byte 1 :: lePut 8 1), some (byte SER_STRING :: (uleb n ++ List.replicate n (byte 97)))]

theorem names_ok : names.Ok where
  cols := by decide
  ids := by decide
  distinct := by decide

/-- The trees with a short name in. -/
def namedTrees : Trees := (rowInsert namesTrees names (nameRow 5)).2

/-- The row `2, "aaa"`, which stands under another key. -/
def movedRow : List (Option Bytes) :=
  [some (byte SER_NUMBER :: byte 1 :: lePut 8 2), some (byte SER_STRING :: (uleb 3 ++ List.replicate 3 (byte 97)))]

/-- A short name goes in whole, is renamed and moved to the number 2, or is deleted. -/
theorem allOrNothing_names :
    ((rowInsert namesTrees names (nameRow 5)).1.toBool ∧ (rowUpdate namedTrees names (hiddenKey 1) movedRow).1.toBool ∧
      (rowDelete namedTrees names (hiddenKey 1)).1.toBool) ∧
    ((rowUpdate namedTrees names (hiddenKey 1) movedRow).2 names.rowsTree).map (fun m => m.entries.map Prod.fst) =
      some [hiddenKey 2] ∧
    (AllOrNothing names namesTrees (rowInsert namesTrees names (nameRow 5)) ↔
      InsertFits namesTrees names (nameRow 5)) ∧
    (AllOrNothing names namedTrees (rowUpdate namedTrees names (hiddenKey 1) movedRow) ↔
      UpdateFits namedTrees names (hiddenKey 1) movedRow) ∧
    (AllOrNothing names namedTrees (rowDelete namedTrees names (hiddenKey 1)) ↔
      DeleteFits namedTrees names (hiddenKey 1)) :=
  ⟨by decide +kernel, by decide +kernel, (allOrNothing_iff_fits namesTrees names names_ok).1 (nameRow 5),
    (allOrNothing_iff_fits namedTrees names names_ok).2.1 (hiddenKey 1) movedRow,
    (allOrNothing_iff_fits namedTrees names names_ok).2.2 (hiddenKey 1)⟩

theorem long_name_leaves_row :
    names.Ok ∧ ¬ AllOrNothing names namesTrees (rowInsert namesTrees names (nameRow 1100)) := by
  refine ⟨names_ok, fun h => ?_⟩
  have hrefused : (rowInsert namesTrees names (nameRow 1100)).1.toBool = false := by decide +kernel
  have hthere : ((rowInsert namesTrees names (nameRow 1100)).2 names.rowsTree).isSome ∧
      (((rowInsert namesTrees names (nameRow 1100)).2 names.rowsTree).bind (fun m => m.get (hiddenKey 1))).isSome := by
    decide +kernel
  have hempty : Engine.get namesTrees names.rowsTree (hiddenKey 1) = .error .notFound := rfl
  rcases hr : (rowInsert namesTrees names (nameRow 1100)).1 with e | k
  · obtain ⟨m, hm⟩ := Option.isSome_iff_exists.1 hthere.1
    obtain ⟨row, hrow⟩ := Option.isSome_iff_exists.1 hthere.2
    rw [hm] at hrow
    have hget := (h e hr).1 (hiddenKey 1)
    rw [hempty, (Engine.get_eq_ok names.rowsTree_short).2 ⟨by decide, m, hm, hrow⟩] at hget
    cases hget
  · rw [hr] at hrefused
    cases hrefused

end Gsql
end Gbasic
