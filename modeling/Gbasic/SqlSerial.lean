import Gbasic.SqlMoves
import Gbasic.SqlRowExpr
/-!
# SqlSerial — a serial's counters

A counter is kept for each serial and scope, beside the table's rows and apart from them: what writes rows leaves the
counters alone (`rowInsert_serial`), and what writes counters raises them (`Raises`).  Of a row inserted, each serial's
counter is noted before the row is written, and is at least the row's number once it is (`genCommit_raises`); of rows
updated, each number that is set has its scope's counter raised to it (`bumpsApply_raises`).
-/
namespace Gbasic
namespace Gsql

open Lsm (Status GS_MAX_KEY)
open Engine (Trees Tree Bytes)
open Key (SER_NUMBER)
open Engine (treeFind get_eq set_of_ne put del)
open List (mem_cons_of_mem mem_cons_self map_cons mem_cons)

/-! ## RESTART WITH -/

structure Restart where
  table : Bytes
  column : Bytes
  value : Expr
  scope : List Expr

def restartSet (tb : Table) (c : Nat) (scope : Bytes) (hw : Nat) (db : Db) : Result :=
  match serialGet db.trees tb c scope with
  | .error e => ⟨.error e, 0, false, db⟩
  | .ok now =>
    if hw < now then
      ⟨.error (fail .serial (text "serial `" ++ tb.name ++ text "." ++ (tb.col c).name ++ text "` has issued " ++
        number now ++ text ", and a number once issued is never issued again: RESTART WITH may not lower it")), 0,
        false, db⟩
    else if hw = now then ⟨.ok 0, 0, false, db⟩
    else
      match serialSet db.trees tb c scope hw with
      | (.error e, t) => ⟨.error e, 0, false, { db with trees := t }⟩
      | (.ok (), t) => ⟨.ok 0, 0, false, { db with trees := t }⟩

def restartEval (s : Restart) (db : Db) : Except Error (Nat × Bytes) :=
  match s.value db with
  | .error e => .error e
  | .ok v =>
    match readU64 v.bytes with
    | none => .error (fail .expression (text "RESTART WITH takes an exact whole number, 0 or more"))
    | some hw =>
      match scopeKeyFrom [] (s.scope.map (fun e => (e db).map HostValue.bytes)) with
      | .error e => .error e
      | .ok scope => .ok (hw, scope)

def restartColumn (tb : Table) (s : Restart) : Except Error Nat :=
  match tb.find s.column with
  | none =>
    .error (fail .notFound (text "table `" ++ tb.name ++ text "` has no column `" ++ s.column ++ text "`"))
  | some c =>
    let here := text "serial `" ++ tb.name ++ text "." ++ s.column ++ text "`"
    if (tb.col c).gen ≠ .serial then
      .error (fail .schema (text "`" ++ tb.name ++ text "." ++ s.column ++
        text "` is not a serial, so it has no counter to restart"))
    else if (tb.col c).scope.length ≠ s.scope.length then
      if (tb.col c).scope = [] then .error (fail .schema (here ++ text " has no scope, so RESTART takes no FOR"))
      else
        .error (fail .schema (here ++ text " numbers within " ++ number (tb.col c).scope.length ++
          text " scope expression" ++ text (if (tb.col c).scope.length = 1 then "" else "s") ++
          text ": RESTART ... FOR (...) gives one value for each"))
    else .ok c

/-- `SQ_RESTART`. -/
def Restart.run (s : Restart) (db : Db) : Result :=
  match tableOpen db s.table with
  | .error e => ⟨.error e, 0, false, db⟩
  | .ok tb =>
    match restartColumn tb s with
    | .error e => ⟨.error e, 0, false, db⟩
    | .ok c =>
      match restartEval s db with
      | .error e => ⟨.error e, 0, false, db⟩
      | .ok (hw, scope) => restartSet tb c scope hw db

/-! ## Counters raised -/

/-- Every counter that reads still does, and is at least what it was; the other tables' are as they were. -/
structure Raises (tb : Table) (t t' : Trees) : Prop where
  grows : ∀ c scope hw, serialGet t tb c scope = .ok hw → ∃ hw', serialGet t' tb c scope = .ok hw' ∧ hw ≤ hw'
  others : ∀ r : Table, r.serialTree ≠ tb.serialTree → t' r.serialTree = t r.serialTree

def AtLeast (t : Trees) (tb : Table) (c : Nat) (scope : Bytes) (n : Nat) : Prop :=
  ∃ hw, serialGet t tb c scope = .ok hw ∧ n ≤ hw

section
variable {h : Host} {tb r : Table} {t t' t'' : Trees} {c c' n n' : Nat} {scope scope' : Bytes} {db : Db}

theorem serialGet_congr (hs : t' tb.serialTree = t tb.serialTree) (c : Nat) (scope : Bytes) :
    serialGet t' tb c scope = serialGet t tb c scope := by
  have hget : ∀ k, Engine.get t' tb.serialTree k = Engine.get t tb.serialTree k := by
    intro k
    rw [Engine.get, Engine.get, treeFind, treeFind, hs]
  unfold serialGet
  simp only [hget]

theorem Raises.of_same (hs : ∀ r : Table, t' r.serialTree = t r.serialTree) : Raises tb t t' where
  grows c scope hw hg := ⟨hw, by rw [serialGet_congr (hs tb)]; exact hg, le_refl hw⟩
  others r _ := hs r

theorem Raises.trans (h₁ : Raises tb t t') (h₂ : Raises tb t' t'') : Raises tb t t'' where
  grows c scope hw hg := by
    obtain ⟨hw', hg', hle⟩ := h₁.grows c scope hw hg
    obtain ⟨hw'', hg'', hle'⟩ := h₂.grows c scope hw' hg'
    exact ⟨hw'', hg'', hle.trans hle'⟩
  others r hr := (h₂.others r hr).trans (h₁.others r hr)

theorem AtLeast.raised (h : AtLeast t tb c scope n) (hr : Raises tb t t') : AtLeast t' tb c scope n := by
  obtain ⟨hw, hg, hle⟩ := h
  obtain ⟨hw', hg', hle'⟩ := hr.grows c scope hw hg
  exact ⟨hw', hg', hle.trans hle'⟩

theorem serialSet_ok (hs : serialSet t tb c scope n = (.ok (), t')) : c < tb.ncols ∧ (tb.col c).gen = .serial ∧
    (bePut 2 c ++ scope).length ≤ GS_MAX_KEY ∧ ∃ m, t tb.serialTree = some m ∧
      t' = t.set tb.serialTree (some (m.put (bePut 2 c ++ scope) (lePut 8 n))) := by
  unfold serialSet serialKey at hs
  split_ifs at hs with hno
  · cases hs
  dsimp only at hs
  rw [not_or, not_le, not_not] at hno
  by_cases hr : Engine.Room t tb.serialTree (bePut 2 c ++ scope)
  · obtain ⟨m, hm⟩ := Option.isSome_iff_exists.1 hr.2
    rw [Engine.put_room tb.serialTree_short hr.1 hm] at hs
    exact ⟨hno.1, hno.2, hr.1, m, hm, (Prod.mk.inj hs).2.symm⟩
  · obtain ⟨rc, hrc, hput⟩ := Engine.put_refused tb.serialTree_short hr (lePut 8 n)
    rw [hput] at hs
    cases rc <;> first | exact absurd rfl hrc | cases hs

theorem serialGet_set (hcols : tb.ncols ≤ MAX_ITEMS) (hn : n < 2 ^ 64) (hs : serialSet t tb c scope n = (.ok (), t')) :
    serialGet t' tb c scope = .ok n ∧
      ∀ c' scope', (c', scope') ≠ (c, scope) → serialGet t' tb c' scope' = serialGet t tb c' scope' := by
  obtain ⟨hc, hgen, hlen, m, hm, rfl⟩ := serialSet_ok hs
  have hput := Engine.set_self t tb.serialTree (some (m.put (bePut 2 c ++ scope) (lePut 8 n)))
  have hlt : ∀ c < tb.ncols, c < 256 ^ 2 := fun c hc => lt_of_lt_of_le (lt_of_lt_of_le hc hcols) (by decide)
  constructor
  · unfold serialGet serialKey
    rw [if_neg (by rw [not_or, not_le, not_not]; exact ⟨hc, hgen⟩)]
    dsimp only
    rw [(Engine.get_eq_ok tb.serialTree_short).2 ⟨hlen, _, hput, SortedMap.get_put_self ..⟩]
    dsimp only
    rw [if_neg (by simp), leNat_lePut 8 n hn]
  · intro c' scope' hne
    unfold serialGet serialKey
    by_cases hno : tb.ncols ≤ c' ∨ (tb.col c').gen ≠ .serial
    · rw [if_pos hno]
    · rw [if_neg hno]
      dsimp only
      have hkey : bePut 2 c' ++ scope' ≠ bePut 2 c ++ scope := by
        intro he
        obtain ⟨hb, hsc⟩ := List.append_inj he (by simp)
        rw [not_or, not_le] at hno
        exact hne (by rw [bePut_injective (hlt _ hno.1) (hlt _ hc) hb, hsc])
      rw [get_eq tb.serialTree_short, get_eq tb.serialTree_short, hput, hm, Option.bind_some,
        Option.bind_some, SortedMap.get_put_of_ne _ hkey]

theorem serialSet_raises (hcols : tb.ncols ≤ MAX_ITEMS) (hn : n < 2 ^ 64)
    (hle : ∀ hw, serialGet t tb c scope = .ok hw → hw ≤ n)
    (hs : serialSet t tb c scope n = (.ok (), t')) : Raises tb t t' where
  grows c' scope' hw hg := by
    obtain ⟨hself, hother⟩ := serialGet_set hcols hn hs
    by_cases he : (c', scope') = (c, scope)
    · cases he
      exact ⟨n, hself, hle hw hg⟩
    · exact ⟨hw, by rw [hother _ _ he]; exact hg, le_refl hw⟩
  others r hr := by
    obtain ⟨-, -, -, m, -, rfl⟩ := serialSet_ok hs
    exact set_of_ne t hr _

/-! ## What writes rows leaves the counters alone -/

theorem put_other {tree k v m : Bytes} {fl : Engine.PutFlags} (hn : m ≠ tree) : (put t tree k v fl).2 m = t m := by
  unfold put
  split_ifs
  · rfl
  split
  · rfl
  split_ifs
  · rfl
  · exact set_of_ne t hn _

theorem del_other {tree k m : Bytes} (hn : m ≠ tree) : (del t tree k).2 m = t m := by
  unfold del
  split_ifs
  · rfl
  split
  · rfl
  split_ifs
  · exact set_of_ne t hn _
  · rfl

theorem putEntry_serial (r : Table) (t : Trees) (x : Index) (e : Entry) (k : Bytes) :
    (putEntry t x e k).2 r.serialTree = t r.serialTree := by
  have hput : (put t x.tree e.key (if e.uniqueForm then k else []) .none).2 r.serialTree = t r.serialTree :=
    put_other (serialTree_ne_tree r x)
  unfold putEntry
  split <;> rename_i hp <;> rw [hp] at hput <;> exact hput

theorem delEntry_serial (r : Table) (t : Trees) (tb : Table) (x : Index) (e : Entry) :
    (delEntry t tb x e).2 r.serialTree = t r.serialTree := by
  have hdel := del_other (t := t) (k := e.key) (serialTree_ne_tree r x)
  unfold delEntry
  split <;> rename_i hp <;> rw [hp] at hdel <;> exact hdel

theorem rowInsert_serial (r : Table) (t : Trees) (tb : Table) (vals : List (Option Bytes)) :
    (rowInsert t tb vals).2 r.serialTree = t r.serialTree := by
  unfold rowInsert
  split
  · rfl
  rename_i k _
  have hput : (put t tb.rowsTree k.key (rowEncode tb k.vals) .noOverwrite).2 r.serialTree = t r.serialTree :=
    put_other (serialTree_ne_rowsTree r tb)
  unfold insertWrites
  split <;> rename_i hp <;> rw [hp] at hput
  swap
  · exact hput
  rename_i t₁
  have hentries : (putEntries k.key t₁ k.entries).2 r.serialTree = t₁ r.serialTree := by
    unfold putEntries
    exact inTurn_other (fun t p => putEntry_serial r t p.1 p.2 k.key) k.entries t₁
  unfold insertRest
  split <;> rename_i he <;> rw [he] at hentries
  · exact hentries.trans hput
  split_ifs
  · have hmeta : (metaPut (putEntries k.key t₁ k.entries).2 (metaTableKey tb) (k.rowid + 1)).2 r.serialTree =
        (putEntries k.key t₁ k.entries).2 r.serialTree := metaPut_same (META_ne_treeName 'q' r.id).symm
    rw [he] at hmeta
    split <;> rename_i hm <;> rw [hm] at hmeta <;> exact (hmeta.trans hentries).trans hput
  · exact hentries.trans hput

theorem rowUpdate_serial (r : Table) (t : Trees) (tb : Table) (rowkey : Bytes) (vals : List (Option Bytes)) :
    (rowUpdate t tb rowkey vals).2 r.serialTree = t r.serialTree := by
  unfold rowUpdate
  split
  · rfl
  rename_i u _
  have hrow : (updateRow t tb rowkey u).2 r.serialTree = t r.serialTree := by
    unfold updateRow
    split_ifs
    · have hdel := del_other (t := t) (k := rowkey) (serialTree_ne_rowsTree r tb)
      rcases hd : del t tb.rowsTree rowkey with ⟨st, t₁⟩
      rw [hd] at hdel
      cases st <;> first | exact hdel | exact (put_other (serialTree_ne_rowsTree r tb)).trans hdel
    · exact put_other (serialTree_ne_rowsTree r tb)
  split <;> rename_i hu <;> rw [hu] at hrow
  swap
  · exact hrow
  rename_i t₁
  have hentries : (updateEntries tb (u.key ≠ rowkey) u.key t₁ u.changes).2 r.serialTree = t₁ r.serialTree := by
    unfold updateEntries
    refine inTurn_other (fun t ch => ?_) u.changes t₁
    unfold changeEntry
    split_ifs
    · rfl
    · have hdel := delEntry_serial r t tb ch.index ch.old
      split <;> rename_i hd <;> rw [hd] at hdel
      · exact hdel
      · exact (putEntry_serial r _ ch.index ch.new u.key).trans hdel
  split <;> rename_i he <;> rw [he] at hentries <;> exact hentries.trans hrow

theorem rowDelete_serial (r : Table) (t : Trees) (tb : Table) (rowkey : Bytes) :
    (rowDelete t tb rowkey).2 r.serialTree = t r.serialTree := by
  unfold rowDelete
  split
  · rfl
  rename_i es _
  have hentries : (delEntries tb t es).2 r.serialTree = t r.serialTree := by
    unfold delEntries
    exact inTurn_other (fun t p => delEntry_serial r t tb p.1 p.2) es t
  split <;> rename_i he <;> rw [he] at hentries
  · exact hentries
  rename_i t₁
  have hdel := del_other (t := t₁) (k := rowkey) (serialTree_ne_rowsTree r tb)
  split <;> rename_i hd <;> rw [hd] at hdel <;> exact hdel.trans hentries

theorem applyChanges_serial (r tb : Table) (s : Changing) : ∀ (cs : List RowChange) (done : Nat) (t : Trees),
    (applyChanges tb s done t cs).2.2 r.serialTree = t r.serialTree
  | [], _, _ => rfl
  | ch :: cs, done, t => by
    have hone : (applyChange tb s t ch).2 r.serialTree = t r.serialTree := by
      unfold applyChange
      split_ifs
      · have hup := rowUpdate_serial r t tb ch.key (s.given tb ch)
        split <;> rename_i hu <;> rw [hu] at hup <;> exact hup
      · exact rowDelete_serial r t tb ch.key
    rw [applyChanges]
    split <;> rename_i ha <;> rw [ha] at hone
    · exact hone
    · exact (applyChanges_serial r tb s cs (done + 1) _).trans hone

/-! ## Counters noted -/

theorem readU64_le {v : Bytes} (hr : readU64 v = some n) : n ≤ INT64_MAX := by
  unfold readU64 at hr
  split_ifs at hr with h₁ h₂
  cases hr
  exact not_lt.1 h₂

theorem readU64_putExact (hn : n ≤ INT64_MAX) : readU64 (putExact n) = some n := by
  have hle : leNat (lePut 8 n) = n := leNat_lePut 8 n (lt_of_le_of_lt hn (by decide))
  have hlen : (putExact n).length = 10 := by simp [putExact]
  unfold readU64
  rw [if_neg, show (putExact n).drop 2 = lePut 8 n from rfl, hle, if_neg (not_lt.2 hn)]
  rw [not_or, not_or]
  exact ⟨by rw [hlen]; decide, by show ¬ (byte SER_NUMBER).val ≠ SER_NUMBER; decide, by show ¬ (byte 1).val ≠ 1; decide⟩

theorem rowValues_congr {vals vals' : List (Option Bytes)} {i : Nat} (hi : vals.getD i none = vals'.getD i none) :
    (rowValues tb vals).getD i [] = (rowValues tb vals').getD i [] := by
  rw [rowValues, rowValues, List.getD_eq_getElem?_getD, List.getD_eq_getElem?_getD, List.getElem?_mapIdx,
    List.getElem?_mapIdx, hi]

/-- What a serial notes of a row: its scope, by the values `w` it reads, and the counter to write, past the one
there. -/
structure Noted (h : Host) (t : Trees) (tb : Table) (vals filled : List (Option Bytes)) (w : Vals) (x : Counter) :
    Prop where
  scope : genScope h tb x.col w = .ok x.scope
  past : x.next ≠ 0 → x.next ≤ INT64_MAX ∧ ∃ hw, serialGet t tb x.col x.scope = .ok hw ∧ hw ≤ x.next
  number : ∀ v n, filled.getD x.col none = some v → readU64 v = some n →
    AtLeast t tb x.col x.scope n ∨ (x.next ≠ 0 ∧ n = x.next)
  issued : vals.getD x.col none = none → ∃ hw, serialGet t tb x.col x.scope = .ok hw ∧ hw < INT64_MAX ∧
    x.next = hw + 1 ∧ filled.getD x.col none = some (putExact (hw + 1))

theorem noted_given {vals filled : List (Option Bytes)} {w : Vals} {g : Bytes} (hg : vals.getD c none = some g)
    (hf : filled.getD c none = some g) (hscope : genScope h tb c w = .ok scope)
    (hnext : givenSerial t tb c scope g = .ok n) : Noted h t tb vals filled w ⟨c, scope, n⟩ := by
  unfold givenSerial at hnext
  rcases hr : readU64 g with _ | v <;> rw [hr] at hnext
  · cases hnext
    refine ⟨hscope, fun hne => absurd rfl hne, fun v n hv hn => ?_, fun hnone => ?_⟩
    · rw [hf] at hv
      cases hv
      rw [hr] at hn
      cases hn
    · rw [hg] at hnone
      cases hnone
  · dsimp only at hnext
    split at hnext
    · cases hnext
    rename_i hw hget
    cases hnext
    refine ⟨hscope, fun hne => ?_, fun v' n hv hn => ?_, fun hnone => ?_⟩
    · dsimp only at hne ⊢
      split_ifs at hne ⊢ with hlt
      · exact ⟨readU64_le hr, hw, hget, hlt.le⟩
      · exact absurd rfl hne
    · rw [hf] at hv
      cases hv
      rw [hr] at hn
      cases hn
      by_cases hlt : hw < v
      · right
        dsimp only
        rw [if_pos hlt]
        exact ⟨by omega, rfl⟩
      · exact .inl ⟨hw, hget, not_lt.1 hlt⟩
    · rw [hg] at hnone
      cases hnone

theorem noted_issued {vals filled : List (Option Bytes)} {w : Vals} {hw : Nat}
    (hf : filled.getD c none = some (putExact (hw + 1))) (hscope : genScope h tb c w = .ok scope)
    (hget : serialGet t tb c scope = .ok hw) (hlt : hw < INT64_MAX) :
    Noted h t tb vals filled w ⟨c, scope, hw + 1⟩ where
  scope := hscope
  past _ := ⟨hlt, hw, hget, Nat.le_succ hw⟩
  number v n hv hn := by
    rw [hf] at hv
    cases hv
    rw [readU64_putExact hlt] at hn
    cases hn
    exact .inr ⟨Nat.succ_ne_zero hw, rfl⟩
  issued _ := ⟨hw, hget, hlt, rfl, hf⟩

/-- **Each serial is noted once**, of a row that is the one written but for the serials still to be numbered. -/
theorem genSerials_noted : ∀ {cs : List Nat} {vals : List (Option Bytes)} {whole : Vals}
    {res : List (Option Bytes) × Vals × List Counter}, genSerials h t tb cs vals whole = .ok res →
    (∀ c ∈ cs, c < tb.ncols ∧ (tb.col c).gen = .serial) → cs.Pairwise (· < ·) → vals.length = tb.ncols →
    Readables vals → whole = rowValues tb vals →
    res.2.2.map Counter.col = cs ∧ (∀ j, j ∉ cs → res.1.getD j none = vals.getD j none) ∧
      ∀ x ∈ res.2.2, ∃ w, Noted h t tb vals res.1 w x ∧
        ∀ i, w.getD i [] ≠ (rowValues tb res.1).getD i [] → i ∈ cs ∧ x.col ≤ i ∧ vals.getD i none = none
  | [], vals, whole, res, hg, _, _, _, _, _ => by
    cases hg
    exact ⟨rfl, fun _ _ => rfl, fun x hx => by cases hx⟩
  | c :: cs, vals, whole, res, hg, hcs, hord, hlen, hread, hw => by
    have hcs' : ∀ d ∈ cs, d < tb.ncols ∧ (tb.col d).gen = .serial := fun d hd => hcs d (mem_cons_of_mem _ hd)
    rw [List.pairwise_cons] at hord
    have hnot : c ∉ cs := fun hc => lt_irrefl c (hord.1 c hc)
    obtain ⟨hclt, hgen⟩ := hcs c (mem_cons_self ..)
    rw [genSerials] at hg
    split at hg
    · cases hg
    rename_i scope hscope
    rcases hv : vals.getD c none with _ | g <;> rw [hv] at hg <;> dsimp only at hg
    · split at hg
      · cases hg
      rename_i hw' hget
      split_ifs at hg with hmax
      split at hg
      · cases hg
      rename_i vs w ns hrest
      cases hg
      set vals₁ := vals.set c (some (putExact (hw' + 1))) with hvals₁
      have hset : Readables vals₁ := by
        intro x hx
        rcases List.mem_or_eq_of_mem_set hx with hx | hx
        · exact hread x hx
        · exact Option.some.inj hx ▸ readable_putExact _
      have hself : vals₁.getD c none = some (putExact (hw' + 1)) := by
        rw [hvals₁, List.getD_eq_getElem?_getD, List.getElem?_set_self (hlen ▸ hclt)]
        rfl
      have hother : ∀ j, j ≠ c → vals₁.getD j none = vals.getD j none := by
        intro j hj
        rw [hvals₁, List.getD_eq_getElem?_getD, List.getElem?_set_ne (Ne.symm hj), ← List.getD_eq_getElem?_getD]
      obtain ⟨hmap, hsame, hnoted⟩ :=
        genSerials_noted hrest hcs' hord.2 (by rw [hvals₁, List.length_set]; exact hlen) hset
        (by rw [hw, hvals₁, rowValues_set _ (hlen ▸ hclt)])
      refine ⟨by rw [map_cons, hmap], fun j hj => ?_, fun x hx => ?_⟩
      · rw [mem_cons, not_or] at hj
        rw [hsame j hj.2, hother j hj.1]
      rcases mem_cons.1 hx with rfl | hx
      · refine ⟨whole, noted_issued (by rw [hsame c hnot, hself]) hscope hget (not_le.1 hmax), fun i hi => ?_⟩
        rw [hw] at hi
        have hdiff : vs.getD i none ≠ vals.getD i none := fun he => hi (rowValues_congr he.symm)
        by_cases hic : i = c
        · subst hic
          exact ⟨mem_cons_self .., le_refl i, hv⟩
        have hics : i ∈ cs := by
          by_contra hno
          exact hdiff (by rw [hsame i hno, hother i hic])
        refine ⟨mem_cons_of_mem _ hics, (hord.1 i hics).le, ?_⟩
        by_contra hsome
        have hin := (genSerials_ok hrest hcs' (by rw [hvals₁, List.length_set]; exact hlen) hset
          (by rw [hw, hvals₁, rowValues_set _ (hlen ▸ hclt)])).2.2.2 i
          (.inl (by rw [hother i hic]; exact Option.ne_none_iff_isSome.1 hsome))
        exact hdiff (by rw [hin, hother i hic])
      · obtain ⟨w', hw₁, hdiff⟩ := hnoted x hx
        have hmem : x.col ∈ cs := hmap ▸ List.mem_map_of_mem hx
        have hxc : x.col ≠ c := fun he => hnot (he ▸ hmem)
        refine ⟨w', ⟨hw₁.scope, hw₁.past, hw₁.number, fun hnone => hw₁.issued (by rw [hother _ hxc]; exact hnone)⟩,
          fun i hi => ?_⟩
        obtain ⟨hics, hle, hnone⟩ := hdiff i hi
        have hic : i ≠ c := fun he => hnot (he ▸ hics)
        rw [hother i hic] at hnone
        exact ⟨mem_cons_of_mem _ hics, hle, hnone⟩
    · split at hg
      · cases hg
      rename_i next hnext
      split at hg
      · cases hg
      rename_i vs w ns hrest
      cases hg
      obtain ⟨hmap, hsame, hnoted⟩ := genSerials_noted hrest hcs' hord.2 hlen hread hw
      refine ⟨by rw [map_cons, hmap], fun j hj => ?_, fun x hx => ?_⟩
      · rw [mem_cons, not_or] at hj
        exact hsame j hj.2
      rcases mem_cons.1 hx with rfl | hx
      · refine ⟨whole, noted_given hv (by rw [hsame c hnot, hv]) hscope hnext, fun i hi => ?_⟩
        rw [hw] at hi
        have hdiff : vs.getD i none ≠ vals.getD i none := fun he => hi (rowValues_congr he.symm)
        have hics : i ∈ cs := by
          by_contra hno
          exact hdiff (hsame i hno)
        refine ⟨mem_cons_of_mem _ hics, (hord.1 i hics).le, ?_⟩
        by_contra hsome
        exact hdiff ((genSerials_ok hrest hcs' hlen hread hw).2.2.2 i (.inl (Option.ne_none_iff_isSome.1 hsome)))
      · obtain ⟨w', hw₁, hdiff⟩ := hnoted x hx
        refine ⟨w', hw₁, fun i hi => ?_⟩
        obtain ⟨hics, hle, hnone⟩ := hdiff i hi
        exact ⟨mem_cons_of_mem _ hics, hle, hnone⟩

/-! ## Counters written -/

/-- **Counters written are raised**, and each that was noted is there. -/
theorem genCommit_raises (hcols : tb.ncols ≤ MAX_ITEMS) : ∀ {ns : List Counter} {t t' : Trees},
    genCommit tb t ns = (.ok (), t') → (ns.map Counter.col).Nodup →
    (∀ x ∈ ns, x.next ≠ 0 → x.next ≤ INT64_MAX ∧ ∃ hw, serialGet t tb x.col x.scope = .ok hw ∧ hw ≤ x.next) →
    Raises tb t t' ∧ ∀ x ∈ ns, x.next ≠ 0 → AtLeast t' tb x.col x.scope x.next
  | [], t, t', hg, _, _ => by
    cases hg
    exact ⟨Raises.of_same (fun _ => rfl), fun x hx => by cases hx⟩
  | x :: ns, t, t', hg, hnd, hpast => by
    rw [map_cons, List.nodup_cons] at hnd
    unfold genCommit at hg
    rw [inTurn] at hg
    by_cases hz : x.next = 0
    · rw [if_pos hz] at hg
      obtain ⟨hr, hall⟩ := genCommit_raises hcols hg hnd.2 (fun y hy => hpast y (mem_cons_of_mem _ hy))
      refine ⟨hr, fun y hy hne => ?_⟩
      rcases mem_cons.1 hy with rfl | hy
      · exact absurd hz hne
      · exact hall y hy hne
    · rw [if_neg hz] at hg
      rcases hset : serialSet t tb x.col x.scope x.next with ⟨_ | ⟨⟩, t₁⟩ <;> rw [hset] at hg
      · cases hg
      dsimp only at hg
      obtain ⟨hmax, hw, hget, hle⟩ := hpast x (mem_cons_self ..) hz
      have hlt : x.next < 2 ^ 64 := lt_of_le_of_lt hmax (by decide)
      obtain ⟨hself, hother⟩ := serialGet_set hcols hlt hset
      have hraise := serialSet_raises hcols hlt (fun hw' h' => by rw [hget] at h'; cases h'; exact hle) hset
      obtain ⟨hr, hall⟩ := genCommit_raises hcols hg hnd.2 (fun y hy hne => by
        obtain ⟨hm, hw', hg', hle'⟩ := hpast y (mem_cons_of_mem _ hy) hne
        refine ⟨hm, hw', ?_, hle'⟩
        rw [hother _ _ (fun he => hnd.1 (by rw [← (Prod.mk.inj he).1]; exact List.mem_map_of_mem hy))]
        exact hg')
      refine ⟨hraise.trans hr, fun y hy hne => ?_⟩
      rcases mem_cons.1 hy with rfl | hy
      · exact AtLeast.raised ⟨_, hself, le_refl _⟩ hr
      · exact hall y hy hne

/-- **What an UPDATE's numbers raise**: each is reached, and no counter goes down. -/
theorem bumpsApply_raises (hcols : tb.ncols ≤ MAX_ITEMS) : ∀ {bs : List Counter} {t t' : Trees},
    bumpsApply tb t bs = (.ok (), t') → (∀ b ∈ bs, b.next ≤ INT64_MAX) →
    Raises tb t t' ∧ ∀ b ∈ bs, AtLeast t' tb b.col b.scope b.next
  | [], t, t', hb, _ => by
    cases hb
    exact ⟨Raises.of_same (fun _ => rfl), fun x hx => by cases hx⟩
  | b :: bs, t, t', hb, hmax => by
    unfold bumpsApply at hb
    rw [inTurn] at hb
    rcases hget : serialGet t tb b.col b.scope with e | hw <;> rw [hget] at hb <;> dsimp only at hb
    · cases hb
    have hlt : b.next < 2 ^ 64 := lt_of_le_of_lt (hmax b (mem_cons_self ..)) (by decide)
    obtain ⟨t₁, hone, hb⟩ : ∃ t₁, (Raises tb t t₁ ∧ AtLeast t₁ tb b.col b.scope b.next) ∧
        bumpsApply tb t₁ bs = (.ok (), t') := by
      by_cases hn : hw < b.next
      · rw [if_pos hn] at hb
        rcases hset : serialSet t tb b.col b.scope b.next with ⟨_ | ⟨⟩, t₁⟩ <;> rw [hset] at hb
        · cases hb
        have hraise := serialSet_raises hcols hlt (fun hw' h' => by rw [hget] at h'; cases h'; exact hn.le) hset
        exact ⟨t₁, ⟨hraise, _, (serialGet_set hcols hlt hset).1, le_refl _⟩, hb⟩
      · rw [if_neg hn] at hb
        exact ⟨t, ⟨Raises.of_same (fun _ => rfl), hw, hget, not_lt.1 hn⟩, hb⟩
    obtain ⟨hr, hall⟩ := bumpsApply_raises hcols hb (fun y hy => hmax y (mem_cons_of_mem _ hy))
    refine ⟨hone.1.trans hr, fun y hy => ?_⟩
    rcases mem_cons.1 hy with rfl | hy
    · exact hone.2.raised hr
    · exact hall y hy

end

end Gsql
end Gbasic
