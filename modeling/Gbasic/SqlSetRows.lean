import Gbasic.Copies
import Gbasic.SqlSetOp
/-!
# SqlSetRows — what a set operation keeps, and the tallies that keep it

`keeps` says of a row's copy whether it stays, by how many came before it and how many the right side has; `setRows` is
the rows that stay, and `copiesOf` how many of each.  The tallies hold what is left of the right side's copies and
whether a row came out already, so `combineHeld` answers just those rows.
-/
namespace Gbasic
namespace SetOp

open Copies (copies keptFrom copies_append copies_singleton copies_keptFrom countP_range_lt countP_range_ge)

variable {op : SqlSetOp} {all : Bool} {held past : Bytes → Nat} {c : Counts}

/-- Whether a row's copy stays that has `i` before it, where the right side has `n`. -/
def keeps (op : SqlSetOp) (all : Bool) (n i : Nat) : Bool :=
  match op, all with
  | .union, true => true
  | .union, false => decide (i = 0)
  | .intersect, true => decide (i < n)
  | .intersect, false => decide (i = 0) && decide (0 < n)
  | .except, true => decide (n ≤ i)
  | .except, false => decide (i = 0) && decide (n = 0)

/-- How many copies the result has of a row, of `m` on the left and `n` on the right. -/
def copiesOf (op : SqlSetOp) (all : Bool) (m n : Nat) : Nat :=
  match op, all with
  | .union, true => m + n
  | .union, false => if 0 < m + n then 1 else 0
  | .intersect, true => min m n
  | .intersect, false => if 0 < m ∧ 0 < n then 1 else 0
  | .except, true => m - n
  | .except, false => if 0 < m ∧ n = 0 then 1 else 0

variable {α κ : Type} [DecidableEq κ] (key : α → κ)

def stream (op : SqlSetOp) (l r : List α) : List α := if op = .union then l ++ r else l

/-- What an operation keeps of two sides, two rows being the same where they have one key. -/
def setRows (op : SqlSetOp) (all : Bool) (l r : List α) : List α :=
  keptFrom key (fun k i => keeps op all (copies key r k) i) [] (stream op l r)

/-- **Of each row the result has as many copies** as the table says. -/
theorem copies_setRows (op : SqlSetOp) (all : Bool) (l r : List α) (k : κ) :
    copies key (setRows key op all l r) k = copiesOf op all (copies key l k) (copies key r k) := by
  have hone : ∀ m : Nat, (List.range m).countP (fun i => decide (i = 0)) = min m 1 := by
    intro m
    rw [← countP_range_lt 1 m]
    exact List.countP_congr (fun i _ => by simp)
  have hnone : ∀ m : Nat, (List.range m).countP (fun _ => false) = 0 := fun m => by simp
  rw [setRows, copies_keptFrom, Copies.copies_nil]
  simp only [Nat.zero_add]
  cases op with
  | union =>
    rw [stream, if_pos rfl, copies_append]
    cases all with
    | true => simp [keeps, copiesOf]
    | false =>
      simp only [keeps, copiesOf, hone]
      split <;> omega
  | intersect =>
    rw [stream, if_neg (by decide)]
    cases all with
    | true => simp only [keeps, copiesOf, countP_range_lt]
    | false =>
      simp only [keeps, copiesOf]
      by_cases hn : 0 < copies key r k
      · simp only [hn, decide_true, Bool.and_true, and_true, hone]
        split <;> omega
      · simp only [hn, decide_false, Bool.and_false, and_false, hnone, if_false]
  | except =>
    rw [stream, if_neg (by decide)]
    cases all with
    | true => simp only [keeps, copiesOf, countP_range_ge]
    | false =>
      simp only [keeps, copiesOf]
      by_cases hn : copies key r k = 0
      · simp only [hn, decide_true, Bool.and_true, and_true, hone]
        split <;> omega
      · simp only [hn, decide_false, Bool.and_false, and_false, hnone, if_false]

theorem keeps_first (h : ¬(op = .except ∧ all = true)) (n i : Nat) (hk : keeps op all n i = true) :
    keeps op all n 0 = true := by
  cases op <;> cases all <;> simp only [keeps, Bool.and_eq_true, decide_eq_true_eq] at hk ⊢
  · exact ⟨trivial, hk.2⟩
  · omega
  · exact ⟨trivial, hk.2⟩
  · exact absurd ⟨rfl, rfl⟩ h

/-- **The rows of the result first stand** as they first stand in what is gone over, but for EXCEPT ALL. -/
theorem firsts_setRows (h : ¬(op = .except ∧ all = true)) (l r : List α) :
    (Copies.firsts key (setRows key op all l r)).Sublist (Copies.firsts key (stream op l r)) :=
  Copies.firsts_sublist (fun _ _ hk => keeps_first h _ _ hk) _

/-! ## Rows held -/

theorem rows_add (q : Cfg) (s : RowStore) (row : Row) : (s.add q row).rows = s.rows ++ [row] := by
  rw [RowStore.add]
  split <;> rfl

theorem rows_addAll (q : Cfg) : ∀ (rows : List Row) (s : RowStore), (s.addAll q rows).rows = s.rows ++ rows
  | [], s => (List.append_nil _).symm
  | row :: rows, s => by
    rw [RowStore.addAll, List.foldl_cons]
    have h := rows_addAll q rows (s.add q row)
    rw [rows_add, List.append_assoc] at h
    exact h

/-! ## Tallies -/

theorem find_put : ∀ (t : Tally) (key : Bytes) (n : Nat) (k : Bytes),
    (t.put key n).find k = if key = k then some n else t.find k
  | [], _, _, _ => rfl
  | (k', c) :: t, key, n, k => by
    rw [Tally.put]
    by_cases hk : k' = key
    · subst hk
      rw [if_pos rfl, Tally.find, Tally.find]
      split <;> rfl
    · rw [if_neg hk, Tally.find, Tally.find, find_put t]
      by_cases hk' : k' = k
      · subst hk'
        rw [if_pos rfl, if_neg (Ne.symm hk), if_pos rfl]
      · rw [if_neg hk', if_neg hk']

theorem count_put (t : Tally) (key : Bytes) (n : Nat) (k : Bytes) :
    (t.put key n).count k = if key = k then n else t.count k := by
  rw [Tally.count, find_put]
  split
  · rfl
  · rfl

/-- A tally has a count for each of a list's keys, and no other. -/
def Tells (t : Tally) (f : Bytes → Nat) : Prop := ∀ k, t.count k = f k ∧ (f k = 0 → t.find k = none)

def keyOf (n : Nat) (row : Row) : Bytes := (rowKey n row).toOption.getD []

theorem keyOf_ok {n : Nat} {row : Row} {k : Bytes} (h : rowKey n row = .ok k) : keyOf n row = k := by
  rw [keyOf, h]
  rfl

/-- **The right side's tally** has its rows' copies. -/
theorem countRight_ok {n : Nat} : ∀ {rows done : List Row} {t t' : Tally}, countRight n rows t = .ok t' →
    Tells t (copies (keyOf n) done) → Tells t' (copies (keyOf n) (done ++ rows))
  | [], done, t, t', h, ht => by
    cases h
    rw [List.append_nil]
    exact ht
  | row :: rows, done, t, t', h, ht => by
    rw [countRight] at h
    split at h
    · cases h
    rename_i k hk
    have hnext : Tells (t.put k (t.count k + 1)) (copies (keyOf n) (done ++ [row])) := by
      intro k'
      rw [count_put, find_put, copies_append, copies_singleton, keyOf_ok hk]
      obtain ⟨hc, hf⟩ := ht k'
      by_cases he : k = k'
      · subst he
        rw [if_pos rfl, if_pos rfl, if_pos rfl, hc]
        exact ⟨rfl, fun h0 => by omega⟩
      · rw [if_neg he, if_neg he, if_neg he]
        exact ⟨hc, hf⟩
    have := countRight_ok h hnext
    rw [List.append_assoc] at this
    exact this

/-- What the tallies hold once some rows have gone past: of the right side's copies those that are left, and of the
rows kept, for the plain forms, that they came out. -/
structure Tallied (op : SqlSetOp) (all : Bool) (held past : Bytes → Nat) (c : Counts) : Prop where
  right : op ≠ .union → ∀ k, c.right.count k = (if all then held k - past k else held k) ∧
    (held k = 0 → c.right.find k = none)
  emitted : all = false → ∀ k, c.emitted.count k = 0 ↔ past k = 0 ∨ keeps op false (held k) 0 = false

theorem find_none_iff (h : Tallied op false held past c) (hop : op ≠ .union) (k : Bytes) :
    c.right.find k = none ↔ held k = 0 := by
  obtain ⟨hc, hf⟩ := h.right hop k
  refine ⟨fun hn => ?_, hf⟩
  rw [Tally.count, hn] at hc
  exact hc.symm

theorem keeps_plain (op : SqlSetOp) (n i : Nat) : keeps op false n i = (decide (i = 0) && keeps op false n 0) := by
  cases op <;> simp [keeps]

/-- **Whether a row passes**, and what is left of the right side's copies. -/
theorem passRight_eq (h : Tallied op all held past c) (k : Bytes) :
    (passRight op all c.right k).1 = keeps op all (held k) (if all then past k else 0) ∧
      (op ≠ .union → ∀ k', (passRight op all c.right k).2.count k' =
          (if all then held k' - (past k' + if k = k' then 1 else 0) else held k') ∧
        (held k' = 0 → (passRight op all c.right k).2.find k' = none)) := by
  -- a count that is not zero, put back less one
  have hless : op ≠ .union → all = true → 0 < c.right.count k → ∀ k',
      (c.right.put k (c.right.count k - 1)).count k' = held k' - (past k' + if k = k' then 1 else 0) ∧
        (held k' = 0 → (c.right.put k (c.right.count k - 1)).find k' = none) := by
    intro hop hall hpos k'
    have hk := (h.right hop k).1
    obtain ⟨hc, hf⟩ := h.right hop k'
    rw [hall, if_pos rfl] at hk hc
    rw [count_put, find_put]
    by_cases he : k = k'
    · subst he
      rw [if_pos rfl, if_pos rfl, if_pos rfl]
      exact ⟨by omega, fun h0 => by omega⟩
    · rw [if_neg he, if_neg he, if_neg he, Nat.add_zero]
      exact ⟨hc, hf⟩
  -- a count that is zero stays
  have hstay : op ≠ .union → (all = true → ¬0 < c.right.count k) → ∀ k',
      c.right.count k' = (if all then held k' - (past k' + if k = k' then 1 else 0) else held k') ∧
        (held k' = 0 → c.right.find k' = none) := by
    intro hop hzero k'
    have hk := (h.right hop k).1
    obtain ⟨hc, hf⟩ := h.right hop k'
    refine ⟨?_, hf⟩
    cases all with
    | false =>
      rw [hc]
      rfl
    | true =>
      have hz := hzero rfl
      rw [if_pos rfl] at hk hc ⊢
      by_cases he : k = k'
      · subst he
        rw [if_pos rfl]
        omega
      · rw [if_neg he, hc, Nat.add_zero]
  cases op with
  | union =>
    refine ⟨?_, fun hop => absurd rfl hop⟩
    cases all <;> simp [passRight, keeps]
  | intersect =>
    have hop : SqlSetOp.intersect ≠ .union := by decide
    have hk := (h.right hop k).1
    rw [passRight]
    by_cases hpos : 0 < c.right.count k
    · rw [if_pos hpos]
      cases all with
      | true =>
        rw [if_pos rfl] at hk
        refine ⟨?_, fun _ => hless hop rfl hpos⟩
        simp only [keeps, if_true]
        exact (decide_eq_true (by omega)).symm
      | false =>
        refine ⟨?_, fun _ => hstay hop (fun ha => by cases ha)⟩
        rw [if_neg Bool.false_ne_true] at hk
        simp [keeps, ← hk, hpos]
    · rw [if_neg hpos]
      refine ⟨?_, fun _ => hstay hop (fun _ => hpos)⟩
      cases all with
      | true =>
        rw [if_pos rfl] at hk
        simp only [keeps, if_true]
        exact (decide_eq_false (by omega)).symm
      | false =>
        rw [if_neg Bool.false_ne_true] at hk
        simp [keeps, ← hk, hpos]
  | except =>
    have hop : SqlSetOp.except ≠ .union := by decide
    have hk := (h.right hop k).1
    rw [passRight]
    cases all with
    | true =>
      rw [if_pos rfl] at hk
      rw [if_pos rfl]
      by_cases hpos : 0 < c.right.count k
      · rw [if_pos hpos]
        refine ⟨?_, fun _ => hless hop rfl hpos⟩
        simp only [keeps, if_true]
        exact (decide_eq_false (by omega)).symm
      · rw [if_neg hpos]
        refine ⟨?_, fun _ => hstay hop (fun _ => hpos)⟩
        simp only [keeps, if_true]
        exact (decide_eq_true (by omega)).symm
    | false =>
      rw [if_neg Bool.false_ne_true]
      refine ⟨?_, fun _ => hstay hop (fun ha => by cases ha)⟩
      have hnone := find_none_iff h hop k
      rw [if_neg Bool.false_ne_true, Bool.eq_iff_iff, Option.isNone_iff_eq_none, hnone]
      simp [keeps]

/-- **A row goes past** as its copies before it say. -/
theorem combineRow_eq (q : Cfg) (h : Tallied op all held past c) (k : Bytes) (row : Row) :
    Tallied op all held (fun k' => past k' + if k = k' then 1 else 0) (combineRow q op all c k row) ∧
      (combineRow q op all c k row).out.rows = c.out.rows ++ if keeps op all (held k) (past k) then [row] else [] := by
  obtain ⟨hpass, hright⟩ := passRight_eq h k
  rw [combineRow]
  dsimp only
  cases all with
  | true =>
    rw [if_pos rfl] at hpass
    rw [hpass]
    by_cases hkeep : keeps op true (held k) (past k) = true
    · rw [if_pos hkeep, if_pos rfl, if_pos hkeep]
      exact ⟨⟨hright, fun ha => by cases ha⟩, rows_add q _ row⟩
    · rw [if_neg hkeep, if_neg hkeep, List.append_nil]
      exact ⟨⟨hright, fun ha => by cases ha⟩, rfl⟩
  | false =>
    rw [if_neg Bool.false_ne_true] at hpass
    rw [hpass, keeps_plain op (held k) (past k)]
    have hemitted := h.emitted rfl
    -- what came out, where this row is counted too
    have hnext : ∀ e : Tally, (∀ k', k ≠ k' → e.count k' = c.emitted.count k') →
        (e.count k = 0 ↔ keeps op false (held k) 0 = false) →
        ∀ k', e.count k' = 0 ↔ (past k' + if k = k' then 1 else 0) = 0 ∨ keeps op false (held k') 0 = false := by
      intro e hother hown k'
      by_cases he : k = k'
      · subst he
        rw [if_pos rfl, hown]
        exact ⟨Or.inr, fun hor => hor.resolve_left (by omega)⟩
      · rw [if_neg he, Nat.add_zero, hother k' he]
        exact hemitted k'
    by_cases hkeep : keeps op false (held k) 0 = true
    · have hput : ∀ m, 0 < m → ∀ k', (c.emitted.put k m).count k' = 0 ↔
          (past k' + if k = k' then 1 else 0) = 0 ∨ keeps op false (held k') 0 = false := by
        intro m hm
        refine hnext _ (fun k' he => ?_) ?_
        · rw [count_put, if_neg he]
        · rw [count_put, if_pos rfl, hkeep]
          exact iff_of_false (by omega) (by simp)
      have hzero : c.emitted.count k = 0 ↔ past k = 0 := by
        rw [hemitted k, hkeep]
        simp
      rw [hkeep, if_pos rfl, if_neg Bool.false_ne_true, Bool.and_true]
      by_cases he : c.emitted.count k = 0
      · rw [if_pos he, if_pos (decide_eq_true (hzero.1 he))]
        exact ⟨⟨hright, fun _ => hput 1 Nat.one_pos⟩, rows_add q _ row⟩
      · rw [if_neg he, if_neg (by simpa using fun h0 => he (hzero.2 h0)), List.append_nil]
        exact ⟨⟨hright, fun _ => hput _ (Nat.succ_pos _)⟩, rfl⟩
    · rw [Bool.not_eq_true] at hkeep
      rw [hkeep, if_neg Bool.false_ne_true, Bool.and_false, if_neg Bool.false_ne_true, List.append_nil]
      refine ⟨⟨hright, fun _ => hnext _ (fun _ _ => rfl) ?_⟩, rfl⟩
      rw [hemitted k]
      exact iff_of_true (Or.inr hkeep) hkeep

/-- **A side's rows** go past. -/
theorem combineSide_ok (q : Cfg) {op : SqlSetOp} {all : Bool} {n : Nat} {held : Bytes → Nat} :
    ∀ {rows done : List Row} {c c' : Counts}, combineSide q op all n rows c = .ok c' →
      Tallied op all held (copies (keyOf n) done) c →
      c'.out.rows = c.out.rows ++ keptFrom (keyOf n) (fun k i => keeps op all (held k) i) done rows
  | [], done, c, c', h, _ => by
    cases h
    rw [keptFrom, List.append_nil]
  | row :: rows, done, c, c', h, hc => by
    rw [combineSide] at h
    split at h
    · cases h
    rename_i k hk
    obtain ⟨hnext, hout⟩ := combineRow_eq q hc k row
    have hpast : (fun k' => copies (keyOf n) done k' + if k = k' then 1 else 0) = copies (keyOf n) (done ++ [row]) := by
      funext k'
      rw [copies_append, copies_singleton, keyOf_ok hk]
    rw [hpast] at hnext
    rw [combineSide_ok q h hnext, hout, keptFrom, keyOf_ok hk, List.append_assoc]
    split
    · rfl
    · rfl

/-- **In memory the result is the rows that stay.** -/
theorem combineHeld_ok {q : Cfg} {n : Nat} {l r out : RowStore} (h : combineHeld q op all n l r = .ok out) :
    out.rows = setRows (keyOf n) op all l.rows r.rows := by
  rw [combineHeld] at h
  split at h
  · cases h
  rename_i right hright
  split at h
  · cases h
  rename_i c hc
  cases h
  have hstart : Tallied op all (copies (keyOf n) r.rows) (copies (keyOf n) []) ⟨right, [], .none⟩ := by
    refine ⟨fun hop k => ?_, fun _ k => iff_of_true rfl (Or.inl rfl)⟩
    rw [if_neg hop] at hright
    have htold : Tells [] (copies (keyOf n) []) := fun k => ⟨rfl, fun _ => rfl⟩
    have htells := countRight_ok hright htold k
    rw [List.nil_append] at htells
    refine ⟨?_, htells.2⟩
    rw [htells.1, Copies.copies_nil, Nat.sub_zero]
    split <;> rfl
  exact combineSide_ok q hc hstart

end SetOp
end Gbasic
