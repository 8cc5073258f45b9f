import Gbasic.SqlSetParse
import Gbasic.SqlSetSame
/-!
# SqlSetChain — set operations and their chains

What `combine` answers is `setRows`, which has of each row as many copies as the operation says, two rows being the same
where every column is (`SameRow`); a chain is read with INTERSECT first and each level from the left, and its sides'
results are combined as its tree says.
-/
namespace Gbasic
namespace SetOp

open Key (Value)
open Copies (copies)

/-! ## Chains -/

def SqlStmt.map {α β : Type} (f : α → β) : SqlStmt α → SqlStmt β
  | .select a => .select (f a)
  | .setop op all left right => .setop op all (left.map f) (right.map f)

def leafRows {α : Type} : SqlStmt (List α) → List α
  | .select rows => rows
  | .setop _ _ left right => leafRows left ++ leafRows right

def chainRows (n : Nat) : SqlStmt (List (List Value)) → List (List Value)
  | .select rows => rows
  | .setop op all left right => setRows (valueKey n) op all (chainRows n left) (chainRows n right)

theorem setRows_map {α β κ : Type} [DecidableEq κ] {key : α → κ} (f : β → α) (op : SqlSetOp) (all : Bool)
    (l r : List β) :
    setRows key op all (l.map f) (r.map f) = (setRows (fun b => key (f b)) op all l r).map f := by
  have hkeep : (fun k i => keeps op all (copies key (r.map f) k) i) =
      fun k i => keeps op all (copies (fun b => key (f b)) r k) i := by
    funext k i
    rw [Copies.copies_map]
  have hstream : stream op (l.map f) (r.map f) = (stream op l r).map f := by
    rw [stream, stream]
    split
    · rw [List.map_append]
    · rfl
  rw [setRows, hkeep, hstream]
  exact Copies.keptFrom_map f _ _ []

theorem stream_sublist {α : Type} (op : SqlSetOp) (l r : List α) : (stream op l r).Sublist (l ++ r) := by
  rw [stream]
  split
  · exact List.Sublist.refl _
  · exact List.sublist_append_left l r

theorem setRows_sublist {α κ : Type} [DecidableEq κ] (key : α → κ) (op : SqlSetOp) (all : Bool) (l r : List α) :
    (setRows key op all l r).Sublist (stream op l r) := Copies.keptFrom_sublist _ _ _

theorem chainRows_sublist (n : Nat) : ∀ t : SqlStmt (List (List Value)), (chainRows n t).Sublist (leafRows t)
  | .select rows => List.Sublist.refl rows
  | .setop _ _ left right =>
    (setRows_sublist ..).trans ((stream_sublist ..).trans
      ((chainRows_sublist n left).append (chainRows_sublist n right)))

theorem combine_values {q : Cfg} {op : SqlSetOp} {all : Bool} {n : Nat} {l r : List (List Value)} {L R out : RowStore}
    (hl : L.rows = l.map rowOf) (hr : R.rows = r.map rowOf) (htyped : Typed n (l ++ r)) (hfew : Few L.rows R.rows)
    (h : combine q op all n L R = .ok out) : out.rows = (setRows (valueKey n) op all l r).map rowOf := by
  have hends : Ending n (L.rows ++ R.rows) := by
    rw [hl, hr, ← List.map_append]
    exact typed_ending htyped
  rw [combine_ok hends hfew h, hl, hr]
  exact setRows_map rowOf op all l r

/-- **A chain's rows** are its sides' combined. -/
theorem sideRows_ok {q : Cfg} {n : Nat} : ∀ {t : SqlStmt (List (List Value))} {out : RowStore}, Typed n (leafRows t) →
    (leafRows t).length < 2 ^ 64 → sideRows q n (t.map (fun rows => .ok (rows.map rowOf))) = .ok out →
    out.rows = (chainRows n t).map rowOf
  | .select rows, out, _, _, h => by
    cases h
    rw [rows_addAll]
    rfl
  | .setop op all left right, out, htyped, hfew, h => by
    rw [SqlStmt.map, sideRows] at h
    rw [leafRows, List.length_append] at hfew
    split at h
    · cases h
    rename_i L hL
    split at h
    · cases h
    rename_i R hR
    have hl := sideRows_ok (htyped.mono (List.subset_append_left _ _)) (by omega) hL
    have hr := sideRows_ok (htyped.mono (List.subset_append_right _ _)) (by omega) hR
    have hsubl := chainRows_sublist n left
    have hsubr := chainRows_sublist n right
    refine combine_values hl hr (htyped.mono ?_) ?_ h
    · exact (hsubl.append hsubr).subset
    · have h1 := hsubl.length_le
      have h2 := hsubr.length_le
      unfold Few
      rw [hl, hr, List.length_map, List.length_map]
      omega

/-! ## Copies -/

theorem copies_values {n : Nat} {vs : List Value} : ∀ {rows : List (List Value)}, Typed n (vs :: rows) →
    copies (valueKey n) rows (valueKey n vs) = rows.countP (fun ws => decide (SameRow vs ws)) := by
  intro rows h
  refine List.countP_congr (fun ws hw => ?_)
  rw [decide_eq_true_eq, decide_eq_true_eq, eq_comm,
    valueKey_eq_iff h (List.mem_cons_self ..) (List.mem_cons_of_mem vs hw)]

/-- **Of each row the result has the copies the operation says**, counted as rows that are the same. -/
theorem countP_setRows {n : Nat} {vs : List Value} (op : SqlSetOp) (all : Bool) {l r : List (List Value)}
    (h : Typed n (vs :: (l ++ r))) :
    (setRows (valueKey n) op all l r).countP (fun ws => decide (SameRow vs ws)) =
      copiesOf op all (l.countP (fun ws => decide (SameRow vs ws))) (r.countP (fun ws => decide (SameRow vs ws))) := by
  have hsub : (setRows (valueKey n) op all l r) ⊆ l ++ r := ((setRows_sublist ..).trans (stream_sublist ..)).subset
  have hcons : ∀ {rows : List (List Value)}, rows ⊆ l ++ r → Typed n (vs :: rows) :=
    fun hrows => h.mono (List.cons_subset_cons vs hrows)
  rw [← copies_values (hcons hsub), ← copies_values (hcons (List.subset_append_left l r)),
    ← copies_values (hcons (List.subset_append_right l r)), copies_setRows]

/-! ## Refusals -/

theorem countRight_keyed {n : Nat} : ∀ {rows : List Row} {t t' : Tally}, countRight n rows t = .ok t' → Keyed n rows
  | [], _, _, _ => fun row hr => by cases hr
  | row :: rows, t, t', h => by
    rw [countRight] at h
    split at h
    · cases h
    rename_i k hk
    intro row' hr
    rcases List.mem_cons.1 hr with rfl | hr
    · exact ⟨k, hk⟩
    · exact countRight_keyed h row' hr

theorem combineSide_keyed {q : Cfg} {op : SqlSetOp} {all : Bool} {n : Nat} : ∀ {rows : List Row} {c c' : Counts},
    combineSide q op all n rows c = .ok c' → Keyed n rows
  | [], _, _, _ => fun row hr => by cases hr
  | row :: rows, c, c', h => by
    rw [combineSide] at h
    split at h
    · cases h
    rename_i k hk
    intro row' hr
    rcases List.mem_cons.1 hr with rfl | hr
    · exact ⟨k, hk⟩
    · exact combineSide_keyed h row' hr

/-- **A row without a key is refused**, but by UNION ALL, which looks at none. -/
theorem combine_keyed {q : Cfg} {op : SqlSetOp} {all : Bool} {n : Nat} {l r out : RowStore}
    (hop : ¬(op = .union ∧ all = true)) (h : combine q op all n l r = .ok out) : Keyed n (l.rows ++ r.rows) := by
  rw [combine, if_neg hop] at h
  split at h
  · rw [combineSpilled] at h
    split at h
    · cases h
    rename_i s₁ hs₁
    split at h
    · cases h
    rename_i s₂ hs₂
    exact (sides_iff.1 ⟨s₁, hs₁, hs₂⟩).1
  · rw [combineHeld] at h
    split at h
    · cases h
    rename_i right hright
    split at h
    · cases h
    rename_i c hc
    have hside := combineSide_keyed hc
    by_cases hu : op = .union
    · rw [if_pos hu] at hside
      exact hside
    · rw [if_neg hu] at hside hright
      intro row hr
      rcases List.mem_append.1 hr with hr | hr
      · exact hside row hr
      · exact countRight_keyed hright row hr

/-! ## Set operations -/

/-- What set operations over rows of `n` columns do. -/
structure SetOperations (q : Cfg) (n : Nat) : Prop where
  /-- In memory or off the sorter, the result is the rows that stay. -/
  kept : ∀ (op : SqlSetOp) (all : Bool) (l r : List (List Value)) (L R out : RowStore), L.rows = l.map rowOf →
    R.rows = r.map rowOf → Typed n (l ++ r) → Few L.rows R.rows → combine q op all n L R = .ok out →
    out.rows = (setRows (valueKey n) op all l r).map rowOf
  /-- It answers where the sorters take the rows. -/
  answers : ∀ (op : SqlSetOp) (all : Bool) (l r : List (List Value)) (L R : RowStore), L.rows = l.map rowOf →
    R.rows = r.map rowOf → Typed n (l ++ r) → l.length + r.length < 2 ^ 31 →
    (∀ vs ∈ l ++ r, (valueKey n vs).length + 9 < 2 ^ 32) → ∃ out, combine q op all n L R = .ok out
  /-- It refuses rows of which one has no key, but for UNION ALL. -/
  refuses : ∀ (op : SqlSetOp) (all : Bool) (L R : RowStore), ¬(op = .union ∧ all = true) →
    ¬Keyed n (L.rows ++ R.rows) → ∀ out, combine q op all n L R ≠ .ok out
  /-- Of each row as many copies stay as the operation says, of those on the left and on the right. -/
  copies : ∀ (op : SqlSetOp) (all : Bool) (l r : List (List Value)) (vs : List Value), Typed n (vs :: (l ++ r)) →
    (setRows (valueKey n) op all l r).countP (fun ws => decide (SameRow vs ws)) =
      copiesOf op all (l.countP (fun ws => decide (SameRow vs ws))) (r.countP (fun ws => decide (SameRow vs ws)))
  /-- They stand in the order of what is gone over, and but for EXCEPT ALL as each row first stands there. -/
  order : ∀ (op : SqlSetOp) (all : Bool) (l r : List (List Value)),
    (setRows (valueKey n) op all l r).Sublist (stream op l r) ∧
    (¬(op = .except ∧ all = true) → (Copies.firsts (valueKey n) (setRows (valueKey n) op all l r)).Sublist
      (Copies.firsts (valueKey n) (stream op l r)))
  /-- Rows have one key where they are the same. -/
  same : ∀ (rows : List (List Value)), Typed n rows → ∀ vs ∈ rows, ∀ ws ∈ rows,
    (valueKey n vs = valueKey n ws ↔ SameRow vs ws)
  /-- A chain is read with INTERSECT first, and each level from the left. -/
  parses : ∀ (α : Type) (t : SqlStmt (Branch α)) (root : Branch α) (ts rest : List (Tok α)),
    Spells .union t (.select root :: ts) → ts ≠ [] → setWord rest = none →
    compound root (ts ++ rest) = .ok (clearLast t, closing t rest)
  /-- A chain's rows are its sides' rows combined. -/
  chains : ∀ (t : SqlStmt (List (List Value))) (out : RowStore), Typed n (leafRows t) → (leafRows t).length < 2 ^ 64 →
    sideRows q n (t.map (fun rows => .ok (rows.map rowOf))) = .ok out → out.rows = (chainRows n t).map rowOf

/-- **Set operations are their definition on multisets**, of rows that are the same by their keys. -/
theorem setOperations (q : Cfg) (n : Nat) : SetOperations q n where
  kept _ _ _ _ _ _ _ hl hr htyped hfew h := combine_values hl hr htyped hfew h
  answers op all l r L R hl hr htyped hfew hshort := by
    refine combine_some q op all ⟨?_, ?_, ?_⟩ ?_
    · rw [hl, hr, ← List.map_append]
      exact typed_keyed htyped
    · rw [hl, hr, ← List.map_append]
      intro row hrow
      obtain ⟨vs, hv, rfl⟩ := List.mem_map.1 hrow
      exact hshort vs hv
    · rw [hl, hr, List.length_map, List.length_map]
      exact hfew
    · rw [hl, hr, ← List.map_append]
      exact typed_ending htyped
  refuses _ _ _ _ hop hnot out h := hnot (combine_keyed hop h)
  copies op all _ _ _ h := countP_setRows op all h
  order op all l r := ⟨setRows_sublist _ op all l r, fun h => firsts_setRows _ h l r⟩
  same _ h _ hv _ hw := valueKey_eq_iff h hv hw
  parses _ _ _ _ _ h hset hrest := compound_spells h hset hrest
  chains _ _ htyped hfew h := sideRows_ok htyped hfew h

/-- A store of rows in memory. -/
def storeOf (q : Cfg) (rows : List (List Value)) : RowStore := RowStore.none.addAll q (rows.map rowOf)

def small : Cfg := ⟨1000, 1000, fun _ => 1⟩

/-- A row of one number. -/
def numberRow (x : Nat) : List Value := [.number (.exact (BitVec.ofNat 64 x))]

/-- A budget of one row, and runs of one entry. -/
def tight : Cfg := ⟨1, 1, fun _ => 1⟩

def ones : List (List Value) := [1, 2, 1, 1].map numberRow

def others : List (List Value) := [1, 3].map numberRow

theorem typed_numbers (xs : List Nat) : Typed 1 (xs.map numberRow) where
  length := by
    intro vs hv
    obtain ⟨x, -, rfl⟩ := List.mem_map.1 hv
    rfl
  named := by
    intro vs hv ws hw v hv' w hw'
    obtain ⟨x, -, rfl⟩ := List.mem_map.1 hv
    obtain ⟨y, -, rfl⟩ := List.mem_map.1 hw
    rw [List.mem_singleton.1 hv', List.mem_singleton.1 hw']
    trivial

/-- `a UNION b INTERSECT ALL c`, of rows. -/
def sides : SqlStmt (List (List Value)) :=
  .setop .union false (.select ones) (.setop .intersect true (.select ones) (.select others))

def asked (tail : Bool) : Branch Unit := ⟨(), tail⟩

theorem spells_sides : Spells .union
    (.setop .union false (.select (asked false)) (.setop .intersect true (.select (asked false))
      (.select (asked true))))
    [.select (asked false), .word .union, .select (asked false), .word .intersect, .all, .select (asked true)] := by
  have hright := Spells.intersect (.branch (.select (asked false))) rfl .all (.select (asked true))
  exact .union (by decide) (.term (.branch (.select (asked false)))) rfl .none hright

/-- EXCEPT ALL past the budget, a row that has no key, and a chain that is read and combined. -/
theorem setOperations_ones : (storeOf tight ones).spooled = true ∧
    (∃ out, combine tight .except true 1 (storeOf tight ones) (storeOf tight others) = .ok out ∧
      out.rows = ([2, 1, 1].map numberRow).map rowOf) ∧
    (∀ out, combine tight .union false 1 (storeOf tight ones) ⟨[[[]]], 1, false⟩ ≠ .ok out) ∧
    (setRows (valueKey 1) .except true ones others).countP (fun ws => decide (SameRow (numberRow 1) ws)) = 2 ∧
    compound (asked false) [.word .union, .select (asked false), .word .intersect, .all, .select (asked true)] =
      .ok (.setop .union false (.select (asked false))
        (.setop .intersect true (.select (asked false)) (.select (asked false))), true, []) ∧
    ∃ out, sideRows small 1 (sides.map (fun rows => .ok (rows.map rowOf))) = .ok out ∧
      out.rows = ([1, 2].map numberRow).map rowOf := by
  have hspilled := setOperations tight 1
  have hrows : ∀ rows, (storeOf tight rows).rows = rows.map rowOf := fun rows => rows_addAll ..
  have htyped : Typed 1 (ones ++ others) := typed_numbers [1, 2, 1, 1, 1, 3]
  refine ⟨by decide +kernel, ?_, ?_, ?_, ?_, ?_⟩
  · obtain ⟨out, hout⟩ := hspilled.answers .except true ones others _ _ (hrows ones) (hrows others) htyped (by decide)
      (by decide +kernel)
    have hfew : Few (storeOf tight ones).rows (storeOf tight others).rows := by
      unfold Few
      decide +kernel
    refine ⟨out, hout, ?_⟩
    rw [hspilled.kept .except true ones others _ _ out (hrows ones) (hrows others) htyped hfew hout]
    decide +kernel
  · refine hspilled.refuses .union false _ _ (by decide) (fun hkeyed => ?_)
    obtain ⟨k, hk⟩ := hkeyed [[]] (List.mem_append_right _ (List.mem_singleton_self _))
    cases hk
  · rw [hspilled.copies .except true ones others (numberRow 1) (typed_numbers [1, 1, 2, 1, 1, 1, 3])]
    decide +kernel
  · exact hspilled.parses Unit _ _ _ [] spells_sides (by simp) rfl
  · have hok : (sideRows small 1 (sides.map (fun rows => .ok (rows.map rowOf)))).isOk = true := by decide +kernel
    rcases hout : sideRows small 1 (sides.map (fun rows => .ok (rows.map rowOf))) with e | out
    · rw [hout] at hok
      cases hok
    · refine ⟨out, hout, ?_⟩
      rw [(setOperations small 1).chains sides out (typed_numbers [1, 2, 1, 1, 1, 2, 1, 1, 1, 3]) (by decide) hout]
      decide +kernel

/-- True and 1, which the language finds equal, are two rows of a UNION; and EXCEPT ALL of 1, 2, 1 and 1 leaves 2 before
the 1 that the left side has first. -/
theorem true_and_one_apart :
    Same.evalEquals (Value.bool true).said (Value.number (.exact 1)).said = .bool true ∧
    ((combine small .union false 1 (storeOf small [[.bool true]]) (storeOf small [[.number (.exact 1)]])).toOption.map
      RowStore.rows) = some [rowOf [.bool true], rowOf [.number (.exact 1)]] ∧
    ((combine small .except true 1 (storeOf small [[.number (.exact 1)], [.number (.exact 2)], [.number (.exact 1)]])
      (storeOf small [[.number (.exact 1)]])).toOption.map RowStore.rows) =
        some [rowOf [.number (.exact 2)], rowOf [.number (.exact 1)]] := by
  refine ⟨?_, by decide +kernel, by decide +kernel⟩
  have h1 : (1#64).toInt = 1 := by decide
  simp [Value.said, Key.Num.said, Same.evalEquals, Same.numberOrZero, Same.key, Double.eq, Double.isNan, h1]

end SetOp
end Gbasic
