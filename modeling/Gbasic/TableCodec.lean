import Gbasic.Table
/-!
# TableCodec — a row reads back as it was written

What `resolve` passes is well-formed values, one a column, and `rowDecode` of the row they make answers them again, a
`nothing` as unknown (`rowDecode_rowEncode`).  Keys and entries do not tell the two apart (`entriesBuild_stored`).
-/
namespace Gbasic
namespace Gsql

open Engine (Bytes)
open Key (SER_NULL SER_UNKNOWN)

/-! ## What is resolved -/

structure Whole (tb : Table) (v : Vals) : Prop where
  length : v.length = tb.ncols
  values : ∀ x ∈ v, ∃ w, V3.walkWhole x = some w

theorem valueFits_whole {table : Bytes} {c : Column} {v : Bytes} (h : valueFits table c v = .ok ()) :
    ∃ w, V3.walkWhole v = some w := by
  rcases hw : V3.walkWhole v with _ | w
  · rw [valueFits, valueFitsRule, hw] at h
    cases h
  · exact ⟨w, rfl⟩

theorem resolveFrom_whole {tb : Table} : ∀ {cols : List Column} {vals : List (Option Bytes)} {old : Option Vals}
    {v : Vals}, resolveFrom tb cols vals old = .ok v →
    v.length = cols.length ∧ ∀ x ∈ v, ∃ w, V3.walkWhole x = some w
  | [], _, _, v, h => by
    cases h
    exact ⟨rfl, fun x hx => by cases hx⟩
  | c :: cols, vals, old, v, h => by
    rw [resolveFrom] at h
    split at h
    · cases h
    rename_i hfits
    split at h
    · cases h
    rename_i vs hrest
    cases h
    obtain ⟨hlen, hval⟩ := resolveFrom_whole hrest
    refine ⟨by simp [hlen], fun x hx => ?_⟩
    rcases List.mem_cons.1 hx with rfl | hx
    · exact valueFits_whole hfits
    · exact hval x hx

theorem resolve_whole {tb : Table} {vals : List (Option Bytes)} {old : Option Vals} {v : Vals}
    (h : resolve tb vals old = .ok v) : Whole tb v :=
  ⟨(resolveFrom_whole h).1, (resolveFrom_whole h).2⟩

/-! ## What is stored -/

theorem stored_whole {x : Bytes} (h : ∃ w, V3.walkWhole x = some w) : ∃ w, V3.walkWhole (stored x) = some w := by
  unfold stored
  split_ifs
  · exact ⟨{ V3.Walk.start with tag := SER_UNKNOWN }, by decide⟩
  · exact h

theorem rowDecodeFrom_stored {tb : Table} {count : Nat} : ∀ (cols : List Column) (v : Vals) (i : Nat),
    v.length = cols.length → i + cols.length ≤ count → (∀ x ∈ v, ∃ w, V3.walkWhole x = some w) →
    rowDecodeFrom tb count i cols (v.flatMap stored) = .ok (v.map stored, [])
  | [], [], _, _, _, _ => rfl
  | [], _ :: _, _, h, _, _ => by simp at h
  | _ :: _, [], _, h, _, _ => by simp at h
  | c :: cols, x :: v, i, hlen, hi, hv => by
    obtain ⟨w, hw⟩ := stored_whole (hv x (List.mem_cons_self ..))
    have hread := V3.walkOne_append hw (v.flatMap stored)
    rw [List.length_cons] at hi
    have hlt : i < count := by omega
    have hrest : rowDecodeFrom tb count (i + 1) cols (v.flatMap stored) = .ok (v.map stored, []) :=
      rowDecodeFrom_stored cols v (i + 1) (by simpa using hlen) (by omega)
      (fun y hy => hv y (List.mem_cons_of_mem _ hy))
    rw [rowDecodeFrom, if_pos hlt, List.flatMap_cons, hread]
    dsimp only
    rw [hrest]
    simp

/-- **A row reads back as it was written.** -/
theorem rowDecode_rowEncode {tb : Table} (hn : tb.ncols < 2 ^ 64) {v : Vals} (hv : Whole tb v) :
    rowDecode tb (rowEncode tb v) = .ok (v.map stored) := by
  have hformat : leGet 1 (rowEncode tb v) = some (ROW_FORMAT, uleb tb.ncols ++ v.flatMap stored) := rfl
  rw [rowDecode, hformat]
  dsimp only
  rw [ulebGet_uleb _ _ hn]
  simp only [Option.map_some, Option.getD_some, ne_eq, not_true_eq_false, if_false, lt_irrefl]
  rw [rowDecodeFrom_stored tb.cols v 0 hv.length (show 0 + tb.cols.length ≤ tb.ncols from
    (Nat.zero_add _).le) hv.values]

/-! ## Keys of what is stored -/

theorem keyAppend_stored (k x : Bytes) (fl : Key.KeyFlags) :
    (Key.keyAppend k (stored x) fl).1 = (Key.keyAppend k x fl).1 ∧
      (Key.keyAppend k (stored x) fl).2.1 = (Key.keyAppend k x fl).2.1 := by
  unfold stored
  split_ifs with hx
  · subst hx
    exact ⟨rfl, rfl⟩
  · exact ⟨rfl, rfl⟩

theorem keyComponent_stored (k : Bytes) (c : Column) (x : Bytes) (desc : Bool) :
    keyComponent k c (stored x) desc = keyComponent k c x desc := by
  obtain ⟨hst, hk⟩ := keyAppend_stored k x (keyFlags c desc)
  unfold keyComponent
  rcases h : Key.keyAppend k (stored x) (keyFlags c desc) with ⟨st, k', n⟩
  rcases h' : Key.keyAppend k x (keyFlags c desc) with ⟨st', k'', n'⟩
  rw [h, h'] at hst hk
  dsimp only at hst hk
  subst hst hk
  cases st <;> rfl

theorem isAbsent_stored (x : Bytes) : isAbsent (stored x) = isAbsent x := by
  unfold stored
  split_ifs with hx
  · rw [hx]
    rfl
  · rfl

theorem getD_stored (v : Vals) (i : Nat) : (v.map stored).getD i [] = stored (v.getD i []) := by
  rw [List.getD_eq_getElem?_getD, List.getD_eq_getElem?_getD, List.getElem?_map]
  rcases v[i]? with _ | x
  · rfl
  · rfl

theorem primaryKey_stored (tb : Table) (v : Vals) : primaryKey tb (v.map stored) = primaryKey tb v := by
  have hfrom : ∀ (key : List Nat) (k : Bytes), primaryKeyFrom tb (v.map stored) key k = primaryKeyFrom tb v key k := by
    intro key
    induction key with
    | nil => intro k; rfl
    | cons i key ih =>
      intro k
      rw [primaryKeyFrom, primaryKeyFrom, getD_stored, keyComponent_stored]
      split
      · exact ih _
      · rfl
  exact hfrom tb.key []

theorem indexColumns_stored (tb : Table) (v : Vals) : ∀ (cols : List (Nat × Bool)) (k : Bytes) (absent : Bool),
    indexColumns tb (v.map stored) cols k absent = indexColumns tb v cols k absent
  | [], _, _ => rfl
  | (i, desc) :: cols, k, absent => by
    rw [indexColumns, indexColumns, getD_stored, keyComponent_stored, isAbsent_stored]
    split
    · rfl
    · exact indexColumns_stored tb v cols _ _

theorem entriesBuild_stored (tb : Table) (v : Vals) (rowkey : Bytes) :
    entriesBuild tb (v.map stored) rowkey = entriesBuild tb v rowkey := by
  have hentry : ∀ x, indexEntry tb x (v.map stored) rowkey = indexEntry tb x v rowkey := by
    intro x
    rw [indexEntry, indexEntry, indexColumns_stored]
  have hfrom : ∀ idx, entriesFrom tb (v.map stored) rowkey idx = entriesFrom tb v rowkey idx := by
    intro idx
    induction idx with
    | nil => rfl
    | cons x idx ih => rw [entriesFrom, entriesFrom, hentry, ih]
  exact hfrom tb.idx

/-! ## Entries stand in the order of the indexes -/

theorem entriesFrom_indexes {tb : Table} {v : Vals} {rowkey : Bytes} : ∀ {idx : List Index} {es : List (Index × Entry)},
    entriesFrom tb v rowkey idx = .ok es → es.map (·.1) = idx
  | [], es, h => by
    cases h
    rfl
  | x :: idx, es, h => by
    rw [entriesFrom] at h
    split at h
    · cases h
    split at h
    · cases h
    rename_i e _ es' hrest
    cases h
    rw [List.map_cons, entriesFrom_indexes hrest]

theorem entriesBuild_indexes {tb : Table} {v : Vals} {rowkey : Bytes} {es : List (Index × Entry)}
    (h : entriesBuild tb v rowkey = .ok es) : es.map (·.1) = tb.idx := entriesFrom_indexes h

end Gsql
end Gbasic
