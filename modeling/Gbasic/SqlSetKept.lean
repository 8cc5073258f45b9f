import Gbasic.KeyDelimit
import Gbasic.SqlSetSpill
/-!
# SqlSetKept — both ways of combining answer the rows that stay

A side's rows enter the first sorter numbered on (`entriesFrom`), and the numbers that its entries keep are the places
of the rows that stay.  Keys that delimit themselves stand apart, so `combine` answers `setRows` whether its sides are
in memory or not; it does answer where every row has a key and the sorters take the rows.
-/
namespace Gbasic
namespace SetOp

open Copies (copies keptFrom places copies_append copies_singleton copies_cons)
open StableSort (IsStableSort Ascends perm_of_sameByKey)
open Xsort (GsXsort Pair Yields)
open List (mem_cons_self length_append length_singleton mem_cons_of_mem length_cons nil_append append_nil append_assoc
  mem_map length_nil)
open Xsort (addAll add Fits place)

variable {n : Nat} {op : SqlSetOp} {l r : List Row} {all : Bool} {out : List Pair} {s : GsXsort} {q : Cfg}

/-! ## A side's entries -/

def entriesFrom (n tag : Nat) : List Row → List Row → List Entry
  | _, [] => []
  | done, row :: rows => ⟨keyOf n row, tag, done.length⟩ :: entriesFrom n tag (done ++ [row]) rows

theorem addAll_append : ∀ (ps qs : List Pair) (s : GsXsort), addAll s (ps ++ qs) =
    match addAll s ps with
    | .error e => .error e
    | .ok s => addAll s qs
  | [], _, _ => rfl
  | p :: ps, qs, s => by
    rw [List.cons_append, addAll, addAll]
    split
    · rfl
    · exact addAll_append ps qs _

def Keyed (n : Nat) (rows : List Row) : Prop := ∀ row ∈ rows, ∃ k, rowKey n row = .ok k

/-- **A side's rows in the sorter** are its entries. -/
theorem sortSide_iff {n tag : Nat} : ∀ {rows done : List Row} {s s' : GsXsort},
    sortSide n tag rows done.length s = .ok s' ↔
      Keyed n rows ∧ addAll s ((entriesFrom n tag done rows).map Entry.pair) = .ok s'
  | [], done, s, s' => by
    rw [sortSide, entriesFrom, List.map_nil, addAll]
    constructor
    · intro h
      cases h
      exact ⟨(fun row hr => by cases hr), rfl⟩
    · rintro ⟨-, h⟩
      cases h
      rfl
  | row :: rows, done, s, s' => by
    rw [sortSide, entriesFrom, List.map_cons, addAll]
    cases hk : rowKey n row with
    | error e =>
      refine iff_of_false (fun h => by cases h) (fun h => ?_)
      obtain ⟨k, hk'⟩ := h.1 row (mem_cons_self ..)
      rw [hk] at hk'
      cases hk'
    | ok k =>
      have hpair : add s (Entry.pair ⟨keyOf n row, tag, done.length⟩).1 (Entry.pair ⟨keyOf n row, tag, done.length⟩).2 =
          add s (keySuffix k tag done.length) [] := by rw [Entry.pair, keyOf_ok hk]
      rw [hpair]
      dsimp only
      cases hadd : add s (keySuffix k tag done.length) [] with
      | error e => exact iff_of_false (fun h => by cases h) (fun h => by cases h.2)
      | ok s₁ =>
        have ih : sortSide n tag rows (done ++ [row]).length s₁ = .ok s' ↔ _ := sortSide_iff
        rw [length_append, length_singleton] at ih
        rw [ih]
        refine ⟨fun h => ⟨fun r hr => ?_, h.2⟩, fun h => ⟨fun r hr => h.1 r (mem_cons_of_mem row hr), h.2⟩⟩
        rcases List.mem_cons.1 hr with rfl | hr
        · exact ⟨k, hk⟩
        · exact h.1 r hr

theorem length_entriesFrom (n tag : Nat) : ∀ rows done : List Row, (entriesFrom n tag done rows).length = rows.length
  | [], _ => rfl
  | row :: rows, done => by rw [entriesFrom, length_cons, length_cons, length_entriesFrom n tag rows]

theorem entriesFrom_append (n tag : Nat) : ∀ (rows more done : List Row),
    entriesFrom n tag done (rows ++ more) = entriesFrom n tag done rows ++ entriesFrom n tag (done ++ rows) more
  | [], more, done => by
    rw [nil_append, append_nil]
    rfl
  | row :: rows, more, done => by
    rw [List.cons_append, entriesFrom, entriesFrom, entriesFrom_append n tag rows, append_assoc, List.singleton_append,
      List.cons_append]

theorem entriesFrom_mem {n tag : Nat} : ∀ {rows done : List Row} {e : Entry}, e ∈ entriesFrom n tag done rows →
    e.tag = tag ∧ (∃ row ∈ rows, e.key = keyOf n row) ∧ done.length ≤ e.seq ∧ e.seq < done.length + rows.length
  | [], _, _, h => by cases h
  | row :: rows, done, e, h => by
    rw [entriesFrom] at h
    rw [length_cons]
    rcases List.mem_cons.1 h with rfl | h
    · exact ⟨rfl, ⟨row, mem_cons_self .., rfl⟩, Nat.le_refl _, by dsimp only; omega⟩
    · obtain ⟨htag, ⟨row', hr, hk⟩, hlo, hhi⟩ := entriesFrom_mem h
      rw [length_append, length_singleton] at hlo hhi
      exact ⟨htag, ⟨row', mem_cons_of_mem row hr, hk⟩, by omega, by omega⟩

theorem entriesFrom_seqs (n tag : Nat) : ∀ rows done : List Row,
    (entriesFrom n tag done rows).Pairwise (fun a b => a.seq < b.seq)
  | [], _ => List.Pairwise.nil
  | row :: rows, done => by
    rw [entriesFrom]
    refine List.pairwise_cons.2 ⟨fun e he => ?_, entriesFrom_seqs n tag rows _⟩
    have := (entriesFrom_mem he).2.2.1
    rw [length_append, length_singleton] at this
    exact this

theorem countP_entriesFrom (n tag : Nat) (k : Bytes) (m : Nat) : ∀ rows done : List Row,
    (entriesFrom n tag done rows).countP (fun e => decide (e.key = k ∧ e.seq < m)) =
      copies (keyOf n) (rows.take (m - done.length)) k
  | [], done => by
    rw [List.take_nil]
    rfl
  | row :: rows, done => by
    have ih := countP_entriesFrom n tag k m rows (done ++ [row])
    rw [length_append, length_singleton] at ih
    rw [entriesFrom, List.countP_cons, ih]
    dsimp only
    by_cases hm : done.length < m
    · obtain ⟨j, hj⟩ : ∃ j, m - done.length = j + 1 := ⟨m - done.length - 1, by omega⟩
      rw [hj, show m - (done.length + 1) = j by omega, List.take_succ_cons, copies_cons]
      simp only [hm, and_true, decide_eq_true_eq]
      omega
    · rw [show m - done.length = 0 by omega, show m - (done.length + 1) = 0 by omega, List.take_zero, List.take_zero]
      simp [hm]

theorem countP_entriesFrom_all (n tag : Nat) (k : Bytes) (rows done : List Row) :
    (entriesFrom n tag done rows).countP (fun e => decide (e.key = k)) = copies (keyOf n) rows k := by
  have h := countP_entriesFrom n tag k (done.length + rows.length) rows done
  rw [Nat.add_sub_cancel_left, List.take_length] at h
  rw [← h]
  refine List.countP_congr (fun e he => ?_)
  have := (entriesFrom_mem he).2.2.2
  simp only [decide_eq_true_eq]
  exact ⟨fun hk => ⟨hk, this⟩, fun hk => hk.1⟩

/-- **The numbers kept of a side** are the places of its rows that stay. -/
theorem filter_entriesFrom (n : Nat) (keep : Bytes → Nat → Bool) (more : List Row) : ∀ rows done : List Row,
    ((entriesFrom n 1 done rows).filter (fun e => keep e.key (copies (keyOf n)
      ((done ++ rows ++ more).take e.seq) e.key))).map
      Entry.seq = places (keyOf n) keep done rows
  | [], _ => rfl
  | row :: rows, done => by
    have ih := filter_entriesFrom n keep more rows (done ++ [row])
    rw [append_assoc done, List.singleton_append] at ih
    have htake : (done ++ row :: rows ++ more).take done.length = done := by rw [append_assoc, List.take_left]
    rw [entriesFrom, List.filter_cons, places]
    dsimp only
    rw [htake]
    split
    · rw [List.map_cons, ih]
    · exact ih

/-! ## Keys -/

theorem keyItems_ok : ∀ {row : Row} {key k : Bytes}, keyItems key row = .ok k →
    ∃ es, List.Forall₂ (Key.Encodes ⟨false, false⟩) row es ∧ k = key ++ es.flatten
  | [], key, k, h => by
    cases h
    exact ⟨[], .nil, by rw [List.flatten_nil, append_nil]⟩
  | v :: vs, key, k, h => by
    rw [keyItems] at h
    split at h
    · rename_i key' used hv
      obtain ⟨c, r, hc, hkey'⟩ := Key.keyAppend_ok hv
      obtain ⟨es, hes, rfl⟩ := keyItems_ok h
      refine ⟨c :: es, .cons (Key.encodes_iff.2 ⟨c, r, hc, rfl⟩) hes, ?_⟩
      rw [hkey', List.flatten_cons, append_assoc]
      rfl
    · cases h

/-- Rows of `n` columns whose components end where they should: money's letters hold no zero byte and do not begin with
a one. -/
def Ending (n : Nat) (rows : List Row) : Prop :=
  ∀ row ∈ rows, row.length = n ∧ ∀ v ∈ row, Key.SelfEnding ⟨false, false⟩ v

theorem rowKey_parts {row : Row} {k : Bytes} (h : rowKey n row = .ok k)
    (hends : ∀ v ∈ row, Key.SelfEnding ⟨false, false⟩ v) :
    ∃ es, List.Forall₂ (Key.Encodes ⟨false, false⟩) row es ∧ k = es.flatten ∧
      List.Forall₂ Key.Delimits (List.replicate n ⟨false, false⟩) es := by
  rw [rowKey] at h
  split at h
  · cases h
  rename_i hlen
  rw [not_not] at hlen
  obtain ⟨es, hes, rfl⟩ := keyItems_ok h
  refine ⟨es, hes, rfl, ?_⟩
  subst hlen
  clear h
  induction hes with
  | nil => exact .nil
  | @cons v e row es he _ ih =>
    rw [length_cons, List.replicate_succ]
    exact .cons ((Key.delimits_iff he).2 (hends v (mem_cons_self ..)))
      (ih (fun v' hv' => hends v' (mem_cons_of_mem v hv')))

/-- **Rows' keys stand apart**: none properly begins another. -/
theorem keys_apart {rows : List Row} (hkeyed : Keyed n rows) (hends : Ending n rows) :
    Apart (fun k => ∃ row ∈ rows, k = keyOf n row) := by
  have hparts : ∀ row ∈ rows, ∃ es, keyOf n row = List.flatten es ∧
      List.Forall₂ Key.Delimits (List.replicate n ⟨false, false⟩) es := by
    intro row hr
    obtain ⟨k, hk⟩ := hkeyed row hr
    obtain ⟨es, -, rfl, hdel⟩ := rowKey_parts hk (hends row hr).2
    exact ⟨es, keyOf_ok hk, hdel⟩
  rintro k k' ⟨row, hr, rfl⟩ ⟨row', hr', rfl⟩ u hu he
  obtain ⟨es, hes, hdel⟩ := hparts row hr
  obtain ⟨es', hes', hdel'⟩ := hparts row' hr'
  have h1 := Key.splitKey_flatten hdel u
  have h2 := Key.splitKey_flatten hdel' []
  rw [append_nil, ← hes', ← he, hes, h1] at h2
  exact hu (Prod.mk.inj (Option.some.inj h2)).2

/-! ## Past the budget -/

def entryOf (p : Pair) : Entry :=
  ⟨p.1.take (p.1.length - 9), ((p.1[p.1.length - 9]?).getD 0).val, keySeq p.1⟩

theorem entryOf_pair {e : Entry} (h : e.Room) : entryOf e.pair = e := by
  have hseq : keySeq (keySuffix e.key e.tag e.seq) = e.seq := by
    have hdrop : (keySuffix e.key e.tag e.seq).drop ((keySuffix e.key e.tag e.seq).length - 8) = bePut 8 e.seq := by
      have h := drop_keySuffix e.key e.tag e.seq
      rw [length_keySuffix] at h ⊢
      exact h
    rw [keySeq, hdrop, beNat_bePut 8 e.seq h.2]
  rw [entryOf, Entry.pair]
  dsimp only
  rw [take_keySuffix, tag_keySuffix, hseq, Option.getD_some, byte_val, Nat.mod_eq_of_lt h.1]

theorem sorted_entries {E : List Entry} (hroom : ∀ e ∈ E, e.Room) (h : IsStableSort Prod.fst (E.map Entry.pair) out) :
    ∃ T : List Entry, T.Perm E ∧ out = T.map Entry.pair := by
  have hperm := perm_of_sameByKey h.same
  refine ⟨out.map entryOf, ?_, ?_⟩
  · have hback : (E.map Entry.pair).map entryOf = E := by
      rw [List.map_map]
      refine (List.map_congr_left (fun e he => ?_)).trans (List.map_id E)
      exact entryOf_pair (hroom e he)
    rw [← hback]
    exact hperm.map entryOf
  · rw [List.map_map]
    refine ((List.map_congr_left (fun p hp => ?_)).trans (List.map_id out)).symm
    obtain ⟨e, he, rfl⟩ := mem_map.1 (hperm.mem_iff.1 hp)
    rw [Function.comp_apply, entryOf_pair (hroom e he)]
    rfl

/-- The entries of both sides: the rows gone over, and the right side's where they are only counted. -/
def entriesOf (n : Nat) (op : SqlSetOp) (l r : List Row) : List Entry :=
  entriesFrom n 1 [] (stream op l r) ++ if op = .union then [] else entriesFrom n 0 l r

theorem entriesOf_eq (n : Nat) (op : SqlSetOp) (l r : List Row) :
    entriesFrom n 1 [] l ++ entriesFrom n (if op = .union then 1 else 0) l r = entriesOf n op l r := by
  rw [entriesOf, stream]
  by_cases hop : op = .union
  · rw [if_pos hop, if_pos hop, if_pos hop, entriesFrom_append, nil_append, append_nil]
  · rw [if_neg hop, if_neg hop, if_neg hop]

def Few (l r : List Row) : Prop := l.length + r.length < 2 ^ 64

theorem entriesOf_room (hfew : Few l r) {e : Entry} (he : e ∈ entriesOf n op l r) :
    e.Room ∧ e.tag ≤ 1 ∧ ∃ row ∈ l ++ r, e.key = keyOf n row := by
  unfold Few at hfew
  rw [← entriesOf_eq] at he
  rcases List.mem_append.1 he with he | he
  · obtain ⟨htag, ⟨row, hr, hk⟩, -, hhi⟩ := entriesFrom_mem he
    rw [length_nil, Nat.zero_add] at hhi
    exact ⟨⟨by omega, by norm_num; omega⟩, by omega, row, List.mem_append_left _ hr, hk⟩
  · obtain ⟨htag, ⟨row, hr, hk⟩, -, hhi⟩ := entriesFrom_mem he
    refine ⟨⟨?_, by norm_num; omega⟩, ?_, row, List.mem_append_right _ hr, hk⟩
    · rw [htag]
      split <;> omega
    · rw [htag]
      split <;> omega

theorem entriesOf_seqs (n : Nat) (op : SqlSetOp) (l r : List Row) :
    (entriesOf n op l r).Pairwise (fun a b => a.seq ≠ b.seq) := by
  rw [← entriesOf_eq]
  refine List.pairwise_append.2 ⟨(entriesFrom_seqs ..).imp (fun h => h.ne), (entriesFrom_seqs ..).imp (fun h => h.ne),
    ?_⟩
  intro a ha b hb
  have h1 := (entriesFrom_mem ha).2.2.2
  have h2 := (entriesFrom_mem hb).2.2.1
  rw [length_nil] at h1
  omega

/-- **What the entries keep** are the places of the rows that stay. -/
theorem isKept_entriesOf (n : Nat) (op : SqlSetOp) (all : Bool) (l r : List Row) :
    ((entriesOf n op l r).filter (isKept op all (entriesOf n op l r))).map Entry.seq =
      places (keyOf n) (fun k i => keeps op all (copies (keyOf n) r k) i) [] (stream op l r) := by
  have hright : ∀ e ∈ (if op = .union then [] else entriesFrom n 0 l r), e.tag = 0 := by
    intro e he
    split at he
    · cases he
    · exact (entriesFrom_mem he).1
  have hleft : ∀ e ∈ entriesFrom n 1 [] (stream op l r), e.tag = 1 := fun e he => (entriesFrom_mem he).1
  -- the right side's copies, where they count
  have hrights : op ≠ .union → ∀ k, rights (entriesOf n op l r) k = copies (keyOf n) r k := by
    intro hop k
    have hnone : (entriesFrom n 1 [] (stream op l r)).countP (fun e => decide (e.key = k ∧ e.tag = 0)) = 0 := by
      refine List.countP_eq_zero.2 (fun e he => ?_)
      simp [hleft e he]
    rw [rights, entriesOf, if_neg hop, List.countP_append, hnone, Nat.zero_add, ← countP_entriesFrom_all n 0 k r l]
    refine List.countP_congr (fun e he => ?_)
    simp [(entriesFrom_mem he).1]
  have hbefore : ∀ e, before (entriesOf n op l r) e = copies (keyOf n) ((stream op l r).take e.seq) e.key := by
    intro e
    have hnone : (if op = .union then [] else entriesFrom n 0 l r).countP
        (fun f => decide (f.key = e.key ∧ f.tag ≠ 0 ∧ f.seq < e.seq)) = 0 := by
      refine List.countP_eq_zero.2 (fun f hf => ?_)
      simp [hright f hf]
    have hcount := countP_entriesFrom n 1 e.key e.seq (stream op l r) []
    rw [length_nil, Nat.sub_zero] at hcount
    rw [before, entriesOf, List.countP_append, hnone, Nat.add_zero, ← hcount]
    refine List.countP_congr (fun f hf => ?_)
    simp [hleft f hf]
  have hkeep : ∀ e ∈ entriesFrom n 1 [] (stream op l r), isKept op all (entriesOf n op l r) e =
      keeps op all (copies (keyOf n) r e.key) (copies (keyOf n) (([] ++ stream op l r ++ []).take e.seq) e.key) := by
    intro e he
    rw [isKept, hleft e he, hbefore, nil_append, append_nil]
    by_cases hop : op = .union
    · subst hop
      cases all <;> simp [keeps]
    · rw [hrights hop]
      simp
  have hdrop : (if op = .union then [] else entriesFrom n 0 l r).filter (isKept op all (entriesOf n op l r)) = [] := by
    refine List.filter_eq_nil_iff.2 (fun e he => ?_)
    simp [isKept, hright e he]
  conv_lhs => rw [entriesOf, List.filter_append, ← entriesOf, hdrop, append_nil]
  rw [List.filter_congr hkeep]
  exact filter_entriesFrom n (fun k i => keeps op all (copies (keyOf n) r k) i) [] (stream op l r) []

theorem numbers_sorted {A B : List Nat} (hperm : A.Perm B) (hasc : B.Pairwise (fun i j => i < j))
    (hroom : ∀ i ∈ B, i < 256 ^ 8) (h : IsStableSort Prod.fst (A.map numberPair) out) : out = B.map numberPair := by
  have hout : out.Perm (B.map numberPair) := (perm_of_sameByKey h.same).trans (hperm.map numberPair)
  have hB : (B.map numberPair).Pairwise (fun p q => p.1 ≤ q.1) := by
    rw [List.pairwise_map]
    refine hasc.imp_of_mem (fun {i j} hi hj hlt => ?_)
    have := (append_bePut_le (hroom i hi) (hroom j hj) []).2 hlt.le
    exact this
  refine List.Perm.eq_of_pairwise (fun p q hp hq hpq hqp => ?_) h.ascends hB hout
  have hsnd : ∀ p ∈ B.map numberPair, p.2 = [] := by
    intro p hp
    obtain ⟨i, -, rfl⟩ := mem_map.1 hp
    rfl
  exact Prod.ext (le_antisymm hpq hqp) ((hsnd p (hout.mem_iff.1 hp)).trans (hsnd q hq).symm)

theorem sorted_of (hkeyed : Keyed n (l ++ r)) (hends : Ending n (l ++ r)) (hfew : Few l r) {T : List Entry}
    (hperm : T.Perm (entriesOf n op l r)) (hasc : Ascends Prod.fst (T.map Entry.pair)) : Sorted T := by
  have hmem : ∀ e ∈ T, e.Room ∧ e.tag ≤ 1 ∧ ∃ row ∈ l ++ r, e.key = keyOf n row :=
    fun e he => entriesOf_room hfew (hperm.mem_iff.1 he)
  have hseqs : T.Pairwise (fun a b => a.seq ≠ b.seq) :=
    (entriesOf_seqs n op l r).perm hperm.symm (fun h => h.symm)
  rw [Ascends, List.pairwise_map] at hasc
  refine ⟨?_, fun e he => (hmem e he).1, fun e he => (hmem e he).2.1⟩
  refine (hasc.and hseqs).imp_of_mem (fun {a b} ha hb hab => ⟨?_, hab.2⟩)
  exact stands_of_le (keys_apart hkeyed hends) (hmem a ha).2.2 (hmem b hb).2.2 (hmem a ha).1 (hmem b hb).1 hab.1

theorem isKept_perm {T E : List Entry} (h : T.Perm E) : isKept op all T = isKept op all E := by
  funext e
  rw [isKept, isKept, rights, rights, before, before, h.countP_eq, h.countP_eq]

theorem sees_none (op : SqlSetOp) (all : Bool) : Sees op all [] ⟨none, 0, 0⟩ where
  counts k hk := by cases hk
  last k hk := by cases hk
  past k hk := by cases hk
  none _ := rfl

theorem no_wrap {s' : GsXsort} {ps : List Pair} (h : addAll s ps = .ok s') (hv : ∀ p ∈ ps, p.2 = []) :
    ∀ p ∈ ps, p.1.length + p.2.length ≠ 2 ^ 32 := by
  intro p hp
  have hfit : p.1.length ≤ 2 ^ 32 - 1 := (Xsort.fits_of_addAll h p hp).1
  rw [hv p hp, length_nil]
  omega

def placesOf (n : Nat) (op : SqlSetOp) (all : Bool) (l r : List Row) : List Nat :=
  places (keyOf n) (fun k i => keeps op all (copies (keyOf n) r k) i) [] (stream op l r)

/-- **The first sorter read** gives the second the numbers of the rows that stay. -/
theorem first_read (hop : ¬(op = .union ∧ all = true)) (hkeyed : Keyed n (l ++ r)) (hends : Ending n (l ++ r))
    (hfew : Few l r) (hyields : Yields s out)
    (hsort : IsStableSort Prod.fst ((entriesOf n op l r).map Entry.pair) out) :
    ∃ B : List Nat, B.Perm (placesOf n op all l r) ∧ ∀ s₂, keepLoop op all s s₂ ⟨none, 0, 0⟩ =
      stored (addAll s₂ (B.map numberPair)) := by
  obtain ⟨T, hperm, rfl⟩ := sorted_entries (fun e he => (entriesOf_room hfew he).1) hsort
  have hsorted := sorted_of hkeyed hends hfew hperm hsort.ascends
  have hdecided := decided_eq hop hsorted (nil_append T).symm (sees_none op all)
  refine ⟨(T.filter (isKept op all T)).map Entry.seq, ?_, fun s₂ => ?_⟩
  · rw [placesOf, ← isKept_entriesOf n op all l r, isKept_perm hperm]
    exact (hperm.filter _).map _
  · rw [keepLoop_eq hyields, hdecided]

/-- **The second sorter read** gives back the rows that stay. -/
theorem second_read (q : Cfg) (hfew : Few l r) {B : List Nat} (hperm : B.Perm (placesOf n op all l r))
    (hyields : Yields s out) (hsort : IsStableSort Prod.fst (B.map numberPair) out) :
    ∃ res, outLoop q l r s .none = .ok res ∧ res.rows = setRows (keyOf n) op all l r := by
  have hlen : (stream op l r).length ≤ (l ++ r).length := by
    rw [stream]
    split
    · exact Nat.le_refl _
    · rw [length_append]
      exact Nat.le_add_right _ _
  have hin : ∀ i ∈ placesOf n op all l r, i < (l ++ r).length := by
    intro i hi
    have := (Copies.places_mem hi).2
    rw [length_nil] at this
    omega
  have hroom : ∀ i ∈ placesOf n op all l r, i < 256 ^ 8 := by
    intro i hi
    have := hin i hi
    unfold Few at hfew
    rw [length_append] at this
    norm_num
    omega
  obtain rfl := numbers_sorted hperm (Copies.places_ascend _ _ _) hroom hsort
  obtain ⟨res, hres, hrows⟩ := outLoop_ok .none hroom hin hyields
  refine ⟨res, hres, ?_⟩
  -- the rows at the places
  have hmore : l ++ r = [] ++ stream op l r ++ (if op = .union then [] else r) := by
    rw [stream, nil_append]
    split
    · rw [append_nil]
    · rfl
  rw [RowStore.none, List.map_nil, nil_append, hmore, placesOf, Copies.map_places] at hrows
  exact List.map_injective_iff.2 (Option.some_injective _) hrows

theorem entries_values (n : Nat) (op : SqlSetOp) (l r : List Row) :
    ∀ p ∈ (entriesOf n op l r).map Entry.pair, p.2 = [] := by
  intro p hp
  obtain ⟨e, -, rfl⟩ := mem_map.1 hp
  rfl

theorem numbers_values (B : List Nat) : ∀ p ∈ B.map numberPair, p.2 = [] := by
  intro p hp
  obtain ⟨i, -, rfl⟩ := mem_map.1 hp
  rfl

theorem sides_iff {s₂ : GsXsort} : (∃ s₁, sortSide n 1 l 0 (Xsort.opened q.sortRun) = .ok s₁ ∧
      sortSide n (if op = .union then 1 else 0) r l.length s₁ = .ok s₂) ↔
    Keyed n (l ++ r) ∧ addAll (Xsort.opened q.sortRun) ((entriesOf n op l r).map Entry.pair) = .ok s₂ := by
  have hfirst : ∀ s₁, sortSide n 1 l ([] : List Row).length (Xsort.opened q.sortRun) = .ok s₁ ↔ _ :=
    fun _ => sortSide_iff
  constructor
  · rintro ⟨s₁, hs₁, hs₂⟩
    obtain ⟨hkeyl, hadd₁⟩ := (hfirst s₁).1 hs₁
    obtain ⟨hkeyr, hadd₂⟩ := sortSide_iff.1 hs₂
    refine ⟨fun row hr => (List.mem_append.1 hr).elim (hkeyl row) (hkeyr row), ?_⟩
    rw [← entriesOf_eq, List.map_append, addAll_append, hadd₁]
    exact hadd₂
  · rintro ⟨hkeyed, hadd⟩
    rw [← entriesOf_eq, List.map_append, addAll_append] at hadd
    split at hadd
    · cases hadd
    rename_i s₁ hs₁
    exact ⟨s₁, (hfirst s₁).2 ⟨fun row hr => hkeyed row (List.mem_append_left _ hr), hs₁⟩,
      sortSide_iff.2 ⟨fun row hr => hkeyed row (List.mem_append_right _ hr), hadd⟩⟩

/-- **Past the budget the result is the rows that stay.** -/
theorem combineSpilled_ok (hop : ¬(op = .union ∧ all = true)) {l r out : RowStore}
    (hends : Ending n (l.rows ++ r.rows)) (hfew : Few l.rows r.rows) (h : combineSpilled q op all n l r = .ok out) :
    out.rows = setRows (keyOf n) op all l.rows r.rows := by
  rw [combineSpilled] at h
  split at h
  · cases h
  rename_i s₁ hs₁
  split at h
  · cases h
  rename_i s₂ hs₂
  split at h
  · cases h
  rename_i s₃ hs₃
  split at h
  · cases h
  rename_i s₄ hs₄
  split at h
  · cases h
  rename_i s₅ hs₅
  obtain ⟨hkeyed, hadd⟩ := sides_iff.1 ⟨s₁, hs₁, hs₂⟩
  obtain ⟨out₁, hyields₁, hsort₁⟩ := Xsort.yields_of_finish (no_wrap hadd (entries_values n op l.rows r.rows)) hadd hs₃
  obtain ⟨B, hB, hkeep⟩ := first_read hop hkeyed hends hfew hyields₁ hsort₁
  rw [hkeep] at hs₄
  unfold stored at hs₄
  split at hs₄
  · cases hs₄
  rename_i s₄' hadd₂
  cases hs₄
  obtain ⟨out₂, hyields₂, hsort₂⟩ := Xsort.yields_of_finish (no_wrap hadd₂ (numbers_values B)) hadd₂ hs₅
  obtain ⟨res, hres, hrows⟩ := second_read q hfew hB hyields₂ hsort₂
  rw [h] at hres
  cases hres
  exact hrows

/-- **The result is the rows that stay**, in memory or not. -/
theorem combine_ok {l r out : RowStore} (hends : Ending n (l.rows ++ r.rows)) (hfew : Few l.rows r.rows)
    (h : combine q op all n l r = .ok out) : out.rows = setRows (keyOf n) op all l.rows r.rows := by
  rw [combine] at h
  by_cases hall : op = .union ∧ all = true
  · rw [if_pos hall] at h
    obtain ⟨rfl, rfl⟩ := hall
    cases h
    rw [rows_addAll, setRows, stream, if_pos rfl]
    exact (Copies.keptFrom_true (l.rows ++ r.rows) []).symm
  · rw [if_neg hall] at h
    split at h
    · exact combineSpilled_ok hall hends hfew h
    · exact combineHeld_ok h

/-! ## It answers -/

theorem countRight_some {n : Nat} : ∀ {rows : List Row} {t : Tally}, Keyed n rows → ∃ t', countRight n rows t = .ok t'
  | [], t, _ => ⟨t, rfl⟩
  | row :: rows, t, h => by
    obtain ⟨k, hk⟩ := h row (mem_cons_self ..)
    rw [countRight, hk]
    exact countRight_some (fun r hr => h r (mem_cons_of_mem row hr))

theorem combineSide_some (q : Cfg) (op : SqlSetOp) (all : Bool) {n : Nat} : ∀ {rows : List Row} {c : Counts},
    Keyed n rows → ∃ c', combineSide q op all n rows c = .ok c'
  | [], c, _ => ⟨c, rfl⟩
  | row :: rows, c, h => by
    obtain ⟨k, hk⟩ := h row (mem_cons_self ..)
    rw [combineSide, hk]
    exact combineSide_some q op all (fun r hr => h r (mem_cons_of_mem row hr))

theorem combineHeld_some (q : Cfg) (op : SqlSetOp) (all : Bool) {l r : RowStore} (h : Keyed n (l.rows ++ r.rows)) :
    ∃ out, combineHeld q op all n l r = .ok out := by
  have hl : Keyed n l.rows := fun row hr => h row (List.mem_append_left _ hr)
  have hr : Keyed n r.rows := fun row hr => h row (List.mem_append_right _ hr)
  obtain ⟨right, hright⟩ : ∃ right, (if op = .union then .ok [] else countRight n r.rows []) = Except.ok right := by
    split
    · exact ⟨[], rfl⟩
    · exact countRight_some hr
  obtain ⟨c, hc⟩ := combineSide_some q op all (c := ⟨right, [], .none⟩)
    (show Keyed n (if op = .union then l.rows ++ r.rows else l.rows) by split; exacts [h, hl])
  exact ⟨c.out, by rw [combineHeld, hright]; dsimp only; rw [hc]⟩

theorem sorter_some (budget : Nat) {ps : List Pair} (hv : ∀ p ∈ ps, p.2 = []) (hk : ∀ p ∈ ps, p.1.length < 2 ^ 32)
    (hfew : ps.length < 2 ^ 31) : ∃ s s' out, addAll (Xsort.opened budget) ps = .ok s ∧ Xsort.finish s = .ok s' ∧
      Yields s' out ∧ IsStableSort Prod.fst ps out := by
  have hfits : ∀ p ∈ ps, Fits p := by
    intro p hp
    have hlen := hk p hp
    rw [Fits, hv p hp, Xsort.UINT32_MAX]
    exact ⟨by omega, Nat.zero_le _⟩
  refine Xsort.sorts_of_sortable hfits (Or.inr ⟨?_, fun p hp => ?_⟩)
  · have hbatches : ∀ (ps : List Pair) (b : List (List Pair) × List Pair),
        (ps.foldl (place (Xsort.opened budget).budget) b).1.length ≤ b.1.length + ps.length := by
      intro ps
      induction ps with
      | nil => exact fun b => Nat.le_refl _
      | cons p ps ih =>
        intro b
        have hone : (place (Xsort.opened budget).budget b p).1.length ≤ b.1.length + 1 := by
          rw [place]
          split
          · rw [length_append, length_singleton]
          · exact Nat.le_succ _
        have := ih (place (Xsort.opened budget).budget b p)
        rw [List.foldl_cons, length_cons]
        omega
    have := hbatches ps ([], [])
    rw [length_nil, Nat.zero_add] at this
    exact lt_of_le_of_lt this hfew
  · have hlen := hk p hp
    rw [hv p hp, length_nil]
    omega

/-- Rows whose keys the sorters take. -/
structure Sortable (n : Nat) (l r : List Row) : Prop where
  keyed : Keyed n (l ++ r)
  short : ∀ row ∈ l ++ r, (keyOf n row).length + 9 < 2 ^ 32
  few : l.length + r.length < 2 ^ 31

/-- **It answers** where every row has a key and the sorters take them. -/
theorem combine_some (q : Cfg) (op : SqlSetOp) (all : Bool) {l r : RowStore} (h : Sortable n l.rows r.rows)
    (hends : Ending n (l.rows ++ r.rows)) : ∃ out, combine q op all n l r = .ok out := by
  rw [combine]
  split
  · exact ⟨_, rfl⟩
  rename_i hop
  split
  · have hfew : Few l.rows r.rows := by
      have := h.few
      unfold Few
      omega
    have hlen : ((entriesOf n op l.rows r.rows).map Entry.pair).length < 2 ^ 31 := by
      rw [List.length_map, ← entriesOf_eq, length_append, length_entriesFrom, length_entriesFrom]
      exact h.few
    have hshort : ∀ p ∈ (entriesOf n op l.rows r.rows).map Entry.pair, p.1.length < 2 ^ 32 := by
      intro p hp
      obtain ⟨e, he, rfl⟩ := mem_map.1 hp
      obtain ⟨-, -, row, hr, hk⟩ := entriesOf_room hfew he
      rw [Entry.pair, length_keySuffix, hk]
      exact h.short row hr
    obtain ⟨s₂, s₃, out₁, hs₂, hs₃, hyields₁, hsort₁⟩ :=
      sorter_some q.sortRun (entries_values n op l.rows r.rows) hshort hlen
    obtain ⟨s₁, hs₁, hside⟩ := sides_iff.2 ⟨h.keyed, hs₂⟩
    obtain ⟨B, hB, hkeep⟩ := first_read hop h.keyed hends hfew hyields₁ hsort₁
    have hlenB : (B.map numberPair).length < 2 ^ 31 := by
      have hplaces : (placesOf n op all l.rows r.rows).length ≤ _ := Copies.length_places _ _ _
      have hstream : (stream op l.rows r.rows).length ≤ l.rows.length + r.rows.length := by
        rw [stream]
        split
        · rw [length_append]
        · exact Nat.le_add_right _ _
      have hfew' := h.few
      rw [List.length_map, hB.length_eq]
      omega
    have hshortB : ∀ p ∈ B.map numberPair, p.1.length < 2 ^ 32 := by
      intro p hp
      obtain ⟨i, -, rfl⟩ := mem_map.1 hp
      rw [numberPair, length_bePut]
      omega
    obtain ⟨s₄, s₅, out₂, hs₄, hs₅, hyields₂, hsort₂⟩ := sorter_some q.sortRun (numbers_values B) hshortB hlenB
    obtain ⟨res, hres, -⟩ := second_read q hfew hB hyields₂ hsort₂
    refine ⟨res, ?_⟩
    rw [combineSpilled, hs₁]
    dsimp only
    rw [hside]
    dsimp only
    rw [hs₃]
    dsimp only
    rw [hkeep, hs₄, stored]
    dsimp only
    rw [hs₅]
    exact hres
  · exact combineHeld_some q op all h.keyed

end SetOp
end Gbasic
