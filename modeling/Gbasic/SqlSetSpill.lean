import Gbasic.SqlSetRows
import Gbasic.XsortStable
/-!
# SqlSetSpill — the sorters keep what the tallies keep

An entry of the first sorter is a row's key, its side and its number; keys of which none begins another stand in it by
key, then by side, then by number (`Stands`), so that when a left row goes past, the right side's copies and its own
earlier ones have, and nothing of another key stands between.  The second sorter puts the numbers back in order.
-/
namespace Gbasic
namespace SetOp

open Copies (copies keptFrom copies_append copies_singleton)
open StableSort (IsStableSort Ascends perm_of_sameByKey)
open Xsort (GsXsort Pair Yields)
open List (countP_append countP_eq_zero mem_append_right mem_cons_self map_cons)

variable {op : SqlSetOp} {all : Bool}

/-! ## Entries -/

structure Entry where
  key : Bytes
  tag : Nat
  seq : Nat

def Entry.pair (e : Entry) : Pair := (keySuffix e.key e.tag e.seq, [])

def Entry.Room (e : Entry) : Prop := e.tag < 256 ∧ e.seq < 256 ^ 8

theorem length_keySuffix (k : Bytes) (tag seq : Nat) : (keySuffix k tag seq).length = k.length + 9 := by
  rw [keySuffix, List.length_append, List.length_cons, length_bePut]

theorem take_keySuffix (k : Bytes) (tag seq : Nat) :
    (keySuffix k tag seq).take ((keySuffix k tag seq).length - 9) = k := by
  rw [length_keySuffix, Nat.add_sub_cancel, keySuffix, List.take_left]

theorem tag_keySuffix (k : Bytes) (tag seq : Nat) :
    (keySuffix k tag seq)[(keySuffix k tag seq).length - 9]? = some (byte tag) := by
  rw [length_keySuffix, Nat.add_sub_cancel, keySuffix, List.getElem?_append_right (Nat.le_refl _), Nat.sub_self]
  rfl

theorem drop_keySuffix (k : Bytes) (tag seq : Nat) :
    (keySuffix k tag seq).drop ((keySuffix k tag seq).length - 9 + 1) = bePut 8 seq := by
  rw [length_keySuffix, Nat.add_sub_cancel, keySuffix, ← List.drop_drop, List.drop_left]
  rfl

theorem settle_some : ∀ {l m : Bytes}, (∀ u, u ≠ [] → l ++ u ≠ m) → (∀ u, u ≠ [] → m ++ u ≠ l) → ∃ o,
    settle l m = some o
  | [], [], _, _ => ⟨_, rfl⟩
  | [], b :: m, h, _ => absurd rfl (h (b :: m) (List.cons_ne_nil b m))
  | a :: l, [], _, h => absurd rfl (h (a :: l) (List.cons_ne_nil a l))
  | a :: l, b :: m, h, h' => by
    by_cases hab : a = b
    · subst hab
      rw [settle_cons_same]
      refine settle_some (fun u hu he => h u hu ?_) (fun u hu he => h' u hu ?_)
      · rw [List.cons_append, he]
      · rw [List.cons_append, he]
    · exact ⟨_, settle_cons_ne hab l m⟩

def Apart (K : Bytes → Prop) : Prop := ∀ k k', K k → K k' → ∀ u, u ≠ [] → k ++ u ≠ k'

def Stands (a b : Entry) : Prop := a.key ≤ b.key ∧ (a.key = b.key → a.tag ≤ b.tag ∧ (a.tag = b.tag → a.seq ≤ b.seq))

/-- **Entries of keys apart** stand by key, then by side, then by number. -/
theorem stands_of_le {K : Bytes → Prop} (hK : Apart K) {a b : Entry} (ha : K a.key) (hb : K b.key) (hra : a.Room)
    (hrb : b.Room) (h : a.pair.1 ≤ b.pair.1) : Stands a b := by
  have hle : keySuffix a.key a.tag a.seq ≤ keySuffix b.key b.tag b.seq := h
  obtain ⟨o, ho⟩ := settle_some (hK _ _ ha hb) (hK _ _ hb ha)
  have hkey := compares_of_settle ho
  have htail : settle (byte a.tag :: bePut 8 a.seq) (byte b.tag :: bePut 8 b.seq) =
      some ((cmp a.tag b.tag).then (cmp a.seq b.seq)) := by
    have htag : cmp (byte a.tag) (byte b.tag) = cmp a.tag b.tag := by
      rcases lt_trichotomy a.tag b.tag with hlt | heq | hgt
      · rw [(cmp_eq_lt_iff _ _).2 hlt, (cmp_eq_lt_iff _ _).2 (byte_lt hrb.1 hlt)]
      · rw [heq, cmp_same, cmp_same]
      · rw [(cmp_eq_gt_iff _ _).2 hgt, (cmp_eq_gt_iff _ _).2 (byte_lt hra.1 hgt)]
    have hone := settle_append (settle_one (byte a.tag) (byte b.tag)) (settle_bePut 8 _ _ hra.2 hrb.2)
    rw [htag] at hone
    exact hone
  have hall := compares_of_settle (settle_append ho htail)
  have hnot : o.then ((cmp a.tag b.tag).then (cmp a.seq b.seq)) ≠ .gt := by
    intro hgt
    rw [hgt] at hall
    exact absurd hle (not_le.2 hall)
  refine ⟨?_, fun he => ?_⟩
  · cases o with
    | lt => exact (show a.key < b.key from hkey).le
    | eq => exact (show a.key = b.key from hkey).le
    | gt => exact absurd rfl hnot
  · rw [he, settle_self] at ho
    cases ho
    rcases lt_trichotomy a.tag b.tag with hlt | heq | hgt
    · exact ⟨hlt.le, fun h => absurd h hlt.ne⟩
    · refine ⟨heq.le, fun _ => ?_⟩
      rw [heq, cmp_same] at hnot
      exact not_lt.1 (fun hlt => hnot ((cmp_eq_gt_iff _ _).2 hlt))
    · rw [(cmp_eq_gt_iff _ _).2 hgt] at hnot
      exact absurd rfl hnot

/-! ## What the entries decide -/

def lefts (D : List Entry) (k : Bytes) : Nat := D.countP (fun e => decide (e.key = k ∧ e.tag ≠ 0))

def rights (D : List Entry) (k : Bytes) : Nat := D.countP (fun e => decide (e.key = k ∧ e.tag = 0))

/-- What a group has counted, once `a` right rows and then `b` left rows of its key went past. -/
def tallied (op : SqlSetOp) (all : Bool) (a b : Nat) : Nat × Nat :=
  (if op = .except ∧ all = true then a - b else a,
    match op, all with
    | .union, _ => min b 1
    | .intersect, true => min b a
    | .intersect, false => if 0 < a then min b 1 else 0
    | .except, true => 0
    | .except, false => if a = 0 then min b 1 else 0)

structure Sees (op : SqlSetOp) (all : Bool) (D : List Entry) (g : Group) : Prop where
  counts : ∀ k, g.key = some k → (g.right, g.kept) = tallied op all (rights D k) (lefts D k)
  last : ∀ k, g.key = some k → ∃ d ∈ D, d.key = k
  past : ∀ k, g.key = some k → ∀ d ∈ D, d.key ≤ k
  none : g.key = none → D = []

theorem lefts_snoc (D : List Entry) (e : Entry) (k : Bytes) :
    lefts (D ++ [e]) k = lefts D k + if e.key = k ∧ e.tag ≠ 0 then 1 else 0 := by
  rw [lefts, countP_append, List.countP_singleton, lefts]
  simp only [decide_eq_true_eq]

theorem rights_snoc (D : List Entry) (e : Entry) (k : Bytes) :
    rights (D ++ [e]) k = rights D k + if e.key = k ∧ e.tag = 0 then 1 else 0 := by
  rw [rights, countP_append, List.countP_singleton, rights]
  simp only [decide_eq_true_eq]

theorem tallied_right (op : SqlSetOp) (all : Bool) (a : Nat) : tallied op all a 0 = (a, 0) := by
  cases op <;> cases all <;> simp [tallied]

/-- **What a group has counted decides** as the table does. -/
theorem keepEntry_tallied (hop : ¬(op = .union ∧ all = true)) (a b : Nat) :
    keepEntry op all (tallied op all a b).1 (tallied op all a b).2 = keeps op all a b := by
  cases op <;> cases all <;> simp [keepEntry, tallied, keeps] at hop ⊢
  · by_cases ha : 0 < a <;> simp [ha]
  · by_cases ha : a = 0 <;> simp [ha]
  · omega

theorem tallied_left (hop : ¬(op = .union ∧ all = true)) (a b : Nat) :
    (if op = .except ∧ all = true ∧ keeps op all a b = false then (tallied op all a b).1 - 1
      else (tallied op all a b).1,
      if op = .intersect ∨ op = .union ∨ all = false then (tallied op all a b).2 + (keeps op all a b).toNat
      else (tallied op all a b).2) = tallied op all a (b + 1) := by
  cases op <;> cases all <;> simp [tallied, keeps] at hop ⊢
  · by_cases hb : b = 0 <;> simp [hb]
    omega
  · by_cases ha : 0 < a <;> by_cases hb : b = 0 <;> simp [ha, hb]
    omega
  · by_cases hb : b < a <;> simp [hb]
    · omega
    · omega
  · by_cases ha : a = 0 <;> by_cases hb : b = 0 <;> simp [ha, hb]
    omega
  · split <;> omega

def groupOf (g : Group) (k : Bytes) : Group := if g.key = some k then g else ⟨some k, 0, 0⟩

theorem Sees.group {D : List Entry} {g : Group} (h : Sees op all D g) {e : Entry} (he : ∀ d ∈ D, Stands d e) :
    (groupOf g e.key).key = some e.key ∧
      ((groupOf g e.key).right, (groupOf g e.key).kept) = tallied op all (rights D e.key) (lefts D e.key) := by
  rw [groupOf]
  by_cases hk : g.key = some e.key
  · rw [if_pos hk]
    exact ⟨hk, h.counts _ hk⟩
  · rw [if_neg hk]
    refine ⟨rfl, ?_⟩
    have hother : ∀ d ∈ D, d.key ≠ e.key := by
      intro d hd hde
      cases hg : g.key with
      | none =>
        rw [h.none hg] at hd
        cases hd
      | some k =>
        obtain ⟨d', hd', rfl⟩ := h.last k hg
        have hle := h.past _ hg d hd
        rw [hde] at hle
        rw [le_antisymm hle (he d' hd').1] at hk
        exact hk hg
    have hl : lefts D e.key = 0 := countP_eq_zero.2 (fun d hd => by simp [hother d hd])
    have hr : rights D e.key = 0 := countP_eq_zero.2 (fun d hd => by simp [hother d hd])
    rw [hl, hr, tallied_right]

/-- **An entry decides** as the counts before it say. -/
theorem decideEntry_eq (hop : ¬(op = .union ∧ all = true)) {D : List Entry} {g : Group} (h : Sees op all D g)
    {e : Entry} (hroom : e.Room) (he : ∀ d ∈ D, Stands d e) :
    (decideEntry op all g e.pair.1).2 = (decide (e.tag ≠ 0) && keeps op all (rights D e.key) (lefts D e.key)) ∧
      Sees op all (D ++ [e]) (decideEntry op all g e.pair.1).1 := by
  obtain ⟨hkey, hcounts⟩ := h.group he
  have hpast : ∀ d ∈ D ++ [e], d.key ≤ e.key := by
    intro d hd
    rcases List.mem_append.1 hd with hd | hd
    · exact (he d hd).1
    · rw [List.mem_singleton.1 hd]
  have hlast : ∃ d ∈ D ++ [e], d.key = e.key := ⟨e, mem_append_right _ (List.mem_singleton_self e), rfl⟩
  -- the group of the next entries has this key
  have hnext : ∀ r kept : Nat, (r, kept) = tallied op all (rights (D ++ [e]) e.key) (lefts (D ++ [e]) e.key) →
      Sees op all (D ++ [e]) ⟨some e.key, r, kept⟩ := by
    intro r kept hrk
    refine ⟨fun k hk => ?_, fun k hk => ?_, fun k hk => ?_, fun hk => by cases hk⟩
    all_goals cases hk
    · exact hrk
    · exact hlast
    · exact hpast
  have hgroup : (if g.key = some ((e.pair.1).take ((e.pair.1).length - 9)) then g
      else ⟨some ((e.pair.1).take ((e.pair.1).length - 9)), 0, 0⟩) = groupOf g e.key := by
    rw [show (e.pair.1).take ((e.pair.1).length - 9) = e.key from take_keySuffix _ _ _]
    rfl
  have htag : (e.pair.1)[(e.pair.1).length - 9]? = some (byte e.tag) := tag_keySuffix _ _ _
  unfold decideEntry
  dsimp only
  rw [hgroup, htag]
  rcases hg : groupOf g e.key with ⟨gk, right, kept⟩
  rw [hg] at hkey hcounts
  dsimp only at hkey hcounts
  subst hkey
  by_cases hz : e.tag = 0
  · have hno : lefts D e.key = 0 := by
      refine countP_eq_zero.2 (fun d hd => ?_)
      have hd' := (he d hd).2
      simp only [decide_eq_true_eq]
      rintro ⟨hk, ht⟩
      have := (hd' hk).1
      omega
    rw [if_pos (by rw [hz]; rfl)]
    refine ⟨by simp [hz], hnext _ _ ?_⟩
    rw [hno, tallied_right] at hcounts
    cases hcounts
    rw [lefts_snoc, rights_snoc, hno, if_pos ⟨rfl, hz⟩, if_neg (fun hc => hc.2 hz), Nat.add_zero, tallied_right]
  · have hbyte : ¬(some (byte e.tag) = some 0) := by
      intro hb
      have hv := congrArg Fin.val (Option.some.inj hb)
      rw [byte_val, Nat.mod_eq_of_lt hroom.1] at hv
      exact hz hv
    rw [if_neg hbyte]
    have ha : rights (D ++ [e]) e.key = rights D e.key := by
      rw [rights_snoc, if_neg (fun hc => hz hc.2), Nat.add_zero]
    have hb : lefts (D ++ [e]) e.key = lefts D e.key + 1 := by rw [lefts_snoc, if_pos ⟨rfl, hz⟩]
    rw [ha, hb] at hnext
    generalize rights D e.key = a at hcounts hnext ⊢
    generalize lefts D e.key = b at hcounts hnext ⊢
    have hright : right = (tallied op all a b).1 := congrArg Prod.fst hcounts
    have hkept : kept = (tallied op all a b).2 := congrArg Prod.snd hcounts
    dsimp only
    rw [decide_eq_true hz, Bool.true_and, hright, hkept, keepEntry_tallied hop]
    exact ⟨rfl, hnext _ _ (tallied_left hop a b)⟩

/-! ## A whole sorter read -/

/-- How many left rows of an entry's key have lesser numbers. -/
def before (T : List Entry) (e : Entry) : Nat :=
  T.countP (fun f => decide (f.key = e.key ∧ f.tag ≠ 0 ∧ f.seq < e.seq))

def isKept (op : SqlSetOp) (all : Bool) (T : List Entry) (e : Entry) : Bool :=
  decide (e.tag ≠ 0) && keeps op all (rights T e.key) (before T e)

def decided (op : SqlSetOp) (all : Bool) : Group → List Entry → List Nat
  | _, [] => []
  | g, e :: S =>
    if (decideEntry op all g e.pair.1).2 then e.seq :: decided op all (decideEntry op all g e.pair.1).1 S
    else decided op all (decideEntry op all g e.pair.1).1 S

structure Sorted (T : List Entry) : Prop where
  stands : T.Pairwise (fun a b => Stands a b ∧ a.seq ≠ b.seq)
  room : ∀ e ∈ T, e.Room
  sides : ∀ e ∈ T, e.tag ≤ 1

theorem Sorted.counts {D S : List Entry} {e : Entry} (h : Sorted (D ++ e :: S)) (he : e.tag ≠ 0) :
    rights D e.key = rights (D ++ e :: S) e.key ∧ lefts D e.key = before (D ++ e :: S) e := by
  obtain ⟨-, hes, hde⟩ := List.pairwise_append.1 h.stands
  have hside : ∀ f ∈ D ++ e :: S, f.tag ≤ 1 := h.sides
  have hafter : ∀ f ∈ e :: S, f.key = e.key → f.tag ≠ 0 ∧ ¬f.seq < e.seq := by
    intro f hf hk
    rcases List.mem_cons.1 hf with rfl | hf
    · exact ⟨he, lt_irrefl _⟩
    · have hst := (List.rel_of_pairwise_cons hes hf).1.2 hk.symm
      have hle := hside f (mem_append_right _ (List.mem_cons_of_mem e hf))
      have hle' := hside e (mem_append_right _ (mem_cons_self ..))
      have hseq := hst.2 (by omega)
      exact ⟨by omega, by omega⟩
  constructor
  · have hnone : (e :: S).countP (fun f => decide (f.key = e.key ∧ f.tag = 0)) = 0 := by
      refine countP_eq_zero.2 (fun f hf => ?_)
      simp only [decide_eq_true_eq]
      rintro ⟨hk, ht⟩
      exact (hafter f hf hk).1 ht
    rw [rights, rights, countP_append, hnone, Nat.add_zero]
  · have hnone : (e :: S).countP (fun f => decide (f.key = e.key ∧ f.tag ≠ 0 ∧ f.seq < e.seq)) = 0 := by
      refine countP_eq_zero.2 (fun f hf => ?_)
      simp only [decide_eq_true_eq]
      rintro ⟨hk, -, hlt⟩
      exact (hafter f hf hk).2 hlt
    rw [lefts, before, countP_append, hnone, Nat.add_zero]
    refine List.countP_congr (fun d hd => ?_)
    simp only [decide_eq_true_eq]
    refine ⟨fun ⟨hk, ht⟩ => ⟨hk, ht, ?_⟩, fun ⟨hk, ht, _⟩ => ⟨hk, ht⟩⟩
    obtain ⟨hst, hne⟩ := hde d hd e (mem_cons_self ..)
    have hle := hside d (List.mem_append_left _ hd)
    have hle' := hside e (mem_append_right _ (mem_cons_self ..))
    have hseq := (hst.2 hk).2 (by omega)
    omega

/-- **The entries of a sorter decide** each by all of its key. -/
theorem decided_eq {op : SqlSetOp} {all : Bool} (hop : ¬(op = .union ∧ all = true)) {T : List Entry} (h : Sorted T) :
    ∀ {S D : List Entry} {g : Group}, T = D ++ S → Sees op all D g →
      decided op all g S = (S.filter (isKept op all T)).map Entry.seq
  | [], _, _, _, _ => rfl
  | e :: S, D, g, hT, hsees => by
    have hpair : (D ++ e :: S).Pairwise (fun a b => Stands a b ∧ a.seq ≠ b.seq) := hT ▸ h.stands
    have hbefore : ∀ d ∈ D, Stands d e := fun d hd =>
      ((List.pairwise_append.1 hpair).2.2 d hd e (mem_cons_self ..)).1
    have hroom : e.Room := h.room e (by rw [hT]; exact mem_append_right _ (mem_cons_self ..))
    obtain ⟨hkeep, hsees'⟩ := decideEntry_eq hop hsees hroom hbefore
    have hdec : (decideEntry op all g e.pair.1).2 = isKept op all T e := by
      rw [hkeep, isKept]
      by_cases he : e.tag ≠ 0
      · obtain ⟨hr, hl⟩ := (hT ▸ h : Sorted (D ++ e :: S)).counts he
        rw [hr, hl, hT]
      · rw [decide_eq_false he, Bool.false_and, Bool.false_and]
    have ih := decided_eq hop h (S := S) (D := D ++ [e]) (by rw [hT, List.append_assoc]; rfl) hsees'
    rw [decided, hdec, ih, List.filter_cons]
    split
    · rw [map_cons]
    · rfl

def numberPair (i : Nat) : Pair := (bePut 8 i, [])

def stored (x : Except Xsort.Errno GsXsort) : Except Errno GsXsort :=
  match x with
  | .error _ => .error .storage
  | .ok s => .ok s

/-- The first sorter read gives the second what its entries decide. -/
theorem keepLoop_eq : ∀ {S : List Entry} {s₁ s₂ : GsXsort} {g : Group},
    Yields s₁ (S.map Entry.pair) →
      keepLoop op all s₁ s₂ g = stored (Xsort.addAll s₂ ((decided op all g S).map numberPair)) := by
  intro S
  induction S with
  | nil =>
    intro s₁ s₂ g h
    obtain ⟨s', hs'⟩ := h
    rw [keepLoop]
    split
    · rename_i e he
      rw [hs'] at he
      cases he
    · rfl
    · rename_i he
      rw [hs'] at he
      cases he
  | cons e S ih =>
    intro s₁ s₂ g h
    obtain ⟨s', hs', hrest⟩ := h
    rw [keepLoop]
    split
    · rename_i e' he
      rw [hs'] at he
      cases he
    · rename_i he
      rw [hs'] at he
      cases he
    · rename_i ek ev s₁' he
      rw [hs', Except.ok.injEq, Prod.mk.injEq, Option.some.injEq] at he
      obtain ⟨hp, rfl⟩ := he
      obtain rfl : e.pair.1 = ek := congrArg Prod.fst hp
      dsimp only
      have hdrop : (e.pair.1).drop ((e.pair.1).length - 9 + 1) = bePut 8 e.seq := drop_keySuffix _ _ _
      rw [decided]
      by_cases hkeep : (decideEntry op all g e.pair.1).2 = true
      · rw [if_pos hkeep, if_pos hkeep, hdrop, map_cons, Xsort.addAll]
        cases hadd : Xsort.add s₂ (bePut 8 e.seq) [] with
        | error _ =>
          rw [show Xsort.add s₂ (numberPair e.seq).1 (numberPair e.seq).2 = _ from hadd]
          rfl
        | ok s₂' =>
          rw [show Xsort.add s₂ (numberPair e.seq).1 (numberPair e.seq).2 = _ from hadd]
          exact ih hrest
      · rw [if_neg hkeep, if_neg hkeep]
        exact ih hrest

/-- The second sorter read gives back the rows of its numbers. -/
theorem outLoop_ok {q : Cfg} {l r : List Row} : ∀ {A : List Nat} {s₂ : GsXsort} (acc : RowStore),
    (∀ i ∈ A, i < 256 ^ 8) → (∀ i ∈ A, i < (l ++ r).length) → Yields s₂ (A.map numberPair) →
    ∃ out, outLoop q l r s₂ acc = .ok out ∧ out.rows.map some = acc.rows.map some ++ A.map (fun i => (l ++ r)[i]?) := by
  intro A
  induction A with
  | nil =>
    intro s₂ acc _ _ h
    obtain ⟨s', hs'⟩ := h
    refine ⟨acc, ?_, (List.append_nil _).symm⟩
    rw [outLoop]
    split
    · rename_i e he
      rw [hs'] at he
      cases he
    · rfl
    · rename_i he
      rw [hs'] at he
      cases he
  | cons i A ih =>
    intro s₂ acc hroom hin h
    obtain ⟨s', hs', hrest⟩ := h
    have hi := hin i (mem_cons_self ..)
    have hseq : keySeq (numberPair i).1 = i := by
      have hlen : (bePut 8 i).length - 8 = 0 := by rw [length_bePut]
      rw [keySeq, numberPair]
      dsimp only
      rw [hlen, List.drop_zero, beNat_bePut 8 i (hroom i (mem_cons_self ..))]
    have hrow : (if i < l.length then l[i]? else r[i - l.length]?) = some (l ++ r)[i] := by
      rw [← List.getElem?_eq_getElem hi, List.getElem?_append]
    obtain ⟨out, hout, hrows⟩ := ih (acc.add q (l ++ r)[i])
      (fun j hj => hroom j (List.mem_cons_of_mem i hj)) (fun j hj => hin j (List.mem_cons_of_mem i hj)) hrest
    refine ⟨out, ?_, ?_⟩
    · rw [outLoop]
      split
      · rename_i e he
        rw [hs'] at he
        cases he
      · rename_i he
        rw [hs'] at he
        cases he
      · rename_i ek ev s₂' he
        rw [hs', Except.ok.injEq, Prod.mk.injEq, Option.some.injEq] at he
        obtain ⟨hp, rfl⟩ := he
        obtain rfl : (numberPair i).1 = ek := congrArg Prod.fst hp
        rw [hseq, hrow]
        exact hout
    · rw [hrows, rows_add, List.map_append, List.append_assoc, map_cons (f := fun i => (l ++ r)[i]?),
        List.getElem?_eq_getElem hi]
      rfl

end SetOp
end Gbasic
