import Mathlib.Data.List.TakeWhile
import Gbasic.TableIndex
import Gbasic.SqlWrite
/-!
# SqlKeys — a child's values and a parent's key

A parent's row is looked for by the key its columns make of the child's values, and a child's row by the key of the
parent's old values with every currency's letters in it.  Each value says its own length in a key, and in a column of
one currency the letters are the column's, so values with one parent's key have one such key (`fkKey_of_rowKey`).
-/
namespace Gbasic
namespace Gsql

open Engine (Bytes)
open Key (SER_NULL SER_UNKNOWN SER_MONEY KEY_MONEY KEY_MONEY_TYPED Readable component moneyCode)

/-- A value as its column holds it: its letters read back, and in a column of one currency they are the column's. -/
structure InColumn (c : Column) (v : Bytes) : Prop where
  reads : Readable ⟨false, false⟩ v
  currency : c.kind = .money → c.currency ≠ [] → (v.headD 0).val = SER_MONEY → moneyCode v = c.currency

/-! ## What a column takes -/

theorem walkWhole_money {l : Bytes} {w : V3.Walk} (h : V3.walkWhole (byte SER_MONEY :: l) = some w) :
    w.tag = SER_MONEY ∧ w.currency = moneyCode (byte SER_MONEY :: l) := by
  have hone : ∃ r, V3.walkOne (byte SER_MONEY :: l) = some (w, r) := by
    unfold V3.walkWhole Reader.whole at h
    rcases hw : V3.walkOne (byte SER_MONEY :: l) with _ | ⟨w', _ | ⟨b, r⟩⟩ <;> rw [hw] at h
    · cases h
    · cases h
      exact ⟨[], rfl⟩
    · cases h
  obtain ⟨r, hw⟩ := hone
  have htag : Reader.le 1 (byte SER_MONEY :: l) = some (SER_MONEY, l) := rfl
  unfold V3.walkOne V3.walk at hw
  rw [Reader.bind_some htag] at hw
  simp only [if_true, Key.SER_MONEY, Key.SER_NULL, Key.SER_UNKNOWN, Key.SER_BOOL, Key.SER_NUMBER, Key.SER_STRING] at hw
  norm_num at hw
  unfold V3.walkMoney at hw
  obtain ⟨⟨units, l₁⟩, hunits, hw⟩ := Option.bind_eq_some_iff.1 hw
  obtain ⟨⟨exponent, l₂⟩, hexponent, hw⟩ := Option.bind_eq_some_iff.1 hw
  obtain ⟨⟨numeric, l₃⟩, hnumeric, hw⟩ := Option.bind_eq_some_iff.1 hw
  obtain ⟨⟨alen, l₄⟩, halen, hw⟩ := Option.bind_eq_some_iff.1 hw
  obtain ⟨⟨_, l₅⟩, hreq, hw⟩ := Option.bind_eq_some_iff.1 hw
  obtain ⟨⟨letters, l₆⟩, hletters, hw⟩ := Option.bind_eq_some_iff.1 hw
  rw [Key.moneyCode_eq hunits hexponent hnumeric halen]
  unfold Reader.require at hreq
  unfold Reader.bytes at hletters
  split_ifs at hreq hletters
  cases hreq
  cases hletters
  cases hw
  exact ⟨rfl, rfl⟩

/-- **What a column takes is as the column holds it.** -/
theorem inColumn_of_fits {table : Bytes} {c : Column} {v : Bytes} (h : valueFits table c v = .ok ())
    (hr : Readable ⟨false, false⟩ v) : InColumn c v := by
  refine ⟨hr, fun hkind hcur htag => ?_⟩
  obtain ⟨w, hw⟩ := valueFits_whole h
  have hletters := (hr htag rfl).1
  cases v with
  | nil => cases htag
  | cons b l =>
    have hb : b = byte SER_MONEY := by rw [← show b.val = SER_MONEY from htag, byte_of_val]
    subst hb
    obtain ⟨hwtag, hwcur⟩ := walkWhole_money hw
    unfold valueFits valueFitsRule at h
    rw [hw] at h
    dsimp only at h
    by_contra hne
    have hcode : cString w.currency ≠ c.currency := by
      rw [hwcur, cString_eq hletters]
      exact hne
    have hnull : ¬ (w.tag = SER_NULL ∨ w.tag = SER_UNKNOWN) := by rw [hwtag]; decide
    rw [if_neg hnull] at h
    by_cases hbad : w.badTag ≠ 0
    · rw [if_pos hbad] at h
      cases h
    · rw [if_neg hbad, if_neg (by rw [hkind]; simp), if_pos ⟨hkind, hwtag, hcur, hcode⟩] at h
      cases h

theorem inColumn_stored {c : Column} {v : Bytes} (h : InColumn c v) : InColumn c (stored v) := by
  unfold stored
  split_ifs
  · constructor
    · intro htag
      exact absurd htag (by decide)
    · intro _ _ htag
      exact absurd htag (by decide)
  · exact h

/-! ## Components of a typed column, with its letters in them -/

def lettered (c : Column) (p : Bytes) : Bytes :=
  if c.kind = .money ∧ c.currency ≠ [] ∧ (p.headD 0).val = KEY_MONEY_TYPED then
    byte KEY_MONEY :: (c.currency ++ byte 0 :: p.tail)
  else p

theorem headD_component {v p r : Bytes} {fl : Key.KeyFlags} (h : component v fl = .ok (p, r))
    (hm : (v.headD 0).val ≠ SER_MONEY) : (p.headD 0).val ≠ KEY_MONEY_TYPED := by
  unfold component at h
  split at h
  · cases h
  rename_i tag l htag
  obtain ⟨b, rfl, rfl⟩ := Key.leGet_one_eq htag
  have hmag : ∀ n m e, ((Key.putMagnitude n m e).headD 0).val ≠ KEY_MONEY_TYPED := by
    intro n m e
    cases n <;> simp [Key.putMagnitude] <;> decide
  split_ifs at h with hnull hbool hnumber hstring hmoney hdate hother
  · cases h
    decide
  · split at h
    · cases h
    split_ifs at h
    cases h
    show (byte Key.KEY_BOOL).val ≠ KEY_MONEY_TYPED
    decide
  · unfold Key.keyNumber at h
    split at h
    · cases h
    split at h
    · cases h
    dsimp only at h
    split_ifs at h <;> cases h <;> first | exact hmag _ _ _ | decide
  · unfold Key.keyString at h
    split at h
    · cases h
    split_ifs at h
    cases h
    show (byte Key.KEY_STRING).val ≠ KEY_MONEY_TYPED
    decide
  · exact absurd hmoney hm
  · unfold Key.keyDatetime at h
    iterate 3
      split at h
      · cases h
    split at h
    · cases h
    cases h
    show (byte Key.KEY_DATETIME).val ≠ KEY_MONEY_TYPED
    decide

theorem component_not_money {v : Bytes} (fl fl' : Key.KeyFlags) (hm : (v.headD 0).val ≠ SER_MONEY) :
    component v fl = component v fl' := by
  unfold component
  rcases htag : leGet 1 v with _ | ⟨tag, l⟩
  · rfl
  obtain ⟨b, rfl, rfl⟩ := Key.leGet_one_eq htag
  dsimp only
  rw [if_neg (show ¬ b.val = SER_MONEY from hm), if_neg (show ¬ b.val = SER_MONEY from hm)]

/-- **A column's component says what the one with letters is.** -/
theorem component_lettered {c : Column} {v p r : Bytes} (h : component v (keyFlags c false) = .ok (p, r))
    (hc : InColumn c v) : component v ⟨false, false⟩ = .ok (lettered c p, r) := by
  by_cases htyped : c.kind = .money ∧ c.currency ≠ []
  swap
  · have hfl : keyFlags c false = ⟨false, false⟩ := by rw [keyFlags, decide_eq_false htyped]
    rw [lettered, if_neg (fun hh => htyped ⟨hh.1, hh.2.1⟩), ← hfl]
    exact h
  have hfl : keyFlags c false = ⟨false, true⟩ := by rw [keyFlags, decide_eq_true htyped]
  rw [hfl] at h
  by_cases hm : (v.headD 0).val = SER_MONEY
  swap
  · rw [lettered, if_neg (fun hh => headD_component h hm hh.2.2), ← h]
    exact component_not_money _ _ hm
  cases v with
  | nil => cases hm
  | cons b l =>
    have hb : b = byte SER_MONEY := by rw [← show b.val = SER_MONEY from hm, byte_of_val]
    subst hb
    have hcode := hc.currency htyped.1 htyped.2 hm
    have hkey : ∀ fl, component (byte SER_MONEY :: l) fl = Key.keyMoney l fl := fun _ => rfl
    rw [hkey] at h ⊢
    unfold Key.keyMoney at h ⊢
    rcases hunits : leGet 8 l with _ | ⟨units, l₁⟩ <;> rw [hunits] at h
    · cases h
    dsimp only at h ⊢
    rcases hexponent : leGet 1 l₁ with _ | ⟨exponent, l₂⟩ <;> rw [hexponent] at h
    · cases h
    dsimp only at h ⊢
    rcases hnumeric : leGet 2 l₂ with _ | ⟨numeric, l₃⟩ <;> rw [hnumeric] at h
    · cases h
    dsimp only at h ⊢
    rcases halen : leGet 1 l₃ with _ | ⟨alen, l₄⟩ <;> rw [halen] at h
    · cases h
    dsimp only at h ⊢
    rw [Key.moneyCode_eq hunits hexponent hnumeric halen] at hcode
    by_cases hbad : 7 < alen ∨ l₄.length < alen
    · rw [if_pos hbad] at h
      cases h
    rw [if_neg hbad] at h ⊢
    have hp : lettered c ([byte KEY_MONEY_TYPED] ++ Key.putSigned 8 units) =
        byte KEY_MONEY :: (c.currency ++ byte 0 :: Key.putSigned 8 units) := if_pos ⟨htyped.1, htyped.2, rfl⟩
    rw [if_pos rfl] at h
    cases h
    rw [hcode, hp, if_neg (by simp), Key.putCurrency, if_pos htyped.2]
    simp

/-! ## Keys of several columns -/

def parts : List (Column × Bytes) → Option (List Bytes)
  | [] => some []
  | (c, v) :: l =>
    match component v (keyFlags c false) with
    | .error _ => none
    | .ok (p, _) => (parts l).map (fun ps => p :: ps)

theorem directed_asc (c : Column) (p : Bytes) : Key.directed (keyFlags c false) p = p := by
  rw [Key.directed, keyFlags, if_neg Bool.false_ne_true]

theorem primaryKeyFrom_parts {tb : Table} {v : Vals} : ∀ {key : List Nat} {k k' : Bytes},
    primaryKeyFrom tb v key k = .ok k' →
    ∃ ps, parts ((key.map tb.col).zip (key.map (fun i => v.getD i []))) = some ps ∧ k' = k ++ ps.flatten
  | [], k, k', h => by
    cases h
    exact ⟨[], rfl, by simp⟩
  | i :: key, k, k', h => by
    rw [primaryKeyFrom] at h
    split at h
    · rename_i k₁ hk₁
      obtain ⟨p, r, hp, rfl⟩ := keyComponent_some hk₁
      obtain ⟨ps, hps, rfl⟩ := primaryKeyFrom_parts h
      refine ⟨p :: ps, ?_, by rw [directed_asc, List.flatten_cons, List.append_assoc]⟩
      rw [List.map_cons, List.map_cons, List.zip_cons_cons, parts, hp]
      dsimp only
      rw [hps]
      rfl
    · cases h

theorem rowKeyFrom_parts {tb : Table} : ∀ {key : List Nat} {vals : List Bytes} {k k' : Bytes},
    rowKeyFrom tb key (vals.map some) k = .ok k' →
    ∃ ps, parts ((key.map tb.col).zip vals) = some ps ∧ k' = k ++ ps.flatten
  | [], vals, k, k', h => by
    cases h
    exact ⟨[], rfl, by simp⟩
  | i :: key, [], k, k', h => by cases h
  | i :: key, v :: vals, k, k', h => by
    rw [rowKeyFrom] at h
    split at h
    · rename_i k₁ hk₁
      obtain ⟨p, r, hp, rfl⟩ := keyComponent_some hk₁
      obtain ⟨ps, hps, rfl⟩ := rowKeyFrom_parts h
      refine ⟨p :: ps, ?_, by rw [directed_asc, List.flatten_cons, List.append_assoc]⟩
      rw [List.map_cons, List.zip_cons_cons, parts, hp]
      dsimp only
      rw [hps]
      rfl
    · cases h

theorem readable_typed {v : Bytes} (fl : Key.KeyFlags) (h : Readable ⟨false, false⟩ v) : Readable fl v :=
  fun htag _ => h htag rfl

/-- **Components of the same columns that make one key are the same components.** -/
theorem parts_unique : ∀ {l l' : List (Column × Bytes)} {ps ps' : List Bytes}, l.map Prod.fst = l'.map Prod.fst →
    (∀ p ∈ l, InColumn p.1 p.2) → (∀ p ∈ l', InColumn p.1 p.2) → parts l = some ps → parts l' = some ps' →
    ps.flatten = ps'.flatten → ps = ps'
  | [], [], ps, ps', _, _, _, h, h', _ => by
    cases h
    cases h'
    rfl
  | [], _ :: _, _, _, hcols, _, _, _, _, _ => by cases hcols
  | _ :: _, [], _, _, hcols, _, _, _, _, _ => by cases hcols
  | (c, v) :: l, (c', v') :: l', ps, ps', hcols, hin, hin', h, h', he => by
    rw [List.map_cons, List.map_cons] at hcols
    obtain ⟨hc, hcs⟩ := List.cons.inj hcols
    dsimp only at hc
    subst hc
    rw [parts] at h h'
    split at h
    · cases h
    rename_i p r hp
    split at h'
    · cases h'
    rename_i p' r' hp'
    obtain ⟨qs, hqs, rfl⟩ := Option.map_eq_some_iff.1 h
    obtain ⟨qs', hqs', rfl⟩ := Option.map_eq_some_iff.1 h'
    rw [List.flatten_cons, List.flatten_cons] at he
    -- each first component says its own length
    have hlen := (Key.component_delimited hp (readable_typed _ (hin _ (List.mem_cons_self ..)).reads)).len qs.flatten
    have hlen' := (Key.component_delimited hp' (readable_typed _
      (hin' _ (List.mem_cons_self ..)).reads)).len qs'.flatten
    rw [he, hlen'] at hlen
    obtain ⟨hpp, hrest⟩ := List.append_inj he (Option.some.inj hlen).symm
    rw [hpp, parts_unique hcs (fun q hq => hin q (List.mem_cons_of_mem _ hq))
      (fun q hq => hin' q (List.mem_cons_of_mem _ hq)) hqs hqs' hrest]

theorem fkKeyFrom_parts : ∀ {l : List (Column × Bytes)} {ps : List Bytes} (k : Bytes), (∀ p ∈ l, InColumn p.1 p.2) →
    parts l = some ps →
    fkKeyFrom k (l.map Prod.snd) = some (k ++ (List.zipWith lettered (l.map Prod.fst) ps).flatten)
  | [], ps, k, _, h => by
    cases h
    simp [fkKeyFrom]
  | (c, v) :: l, ps, k, hin, h => by
    rw [parts] at h
    split at h
    · cases h
    rename_i p r hp
    obtain ⟨qs, hqs, rfl⟩ := Option.map_eq_some_iff.1 h
    have hlettered := component_lettered hp (hin _ (List.mem_cons_self ..))
    have happend : ∃ n, Key.keyAppend k v ⟨false, false⟩ = (.ok, k ++ lettered c p, n) := by
      unfold Key.keyAppend
      rw [hlettered]
      exact ⟨_, rfl⟩
    obtain ⟨n, happend⟩ := happend
    rw [List.map_cons, fkKeyFrom, happend]
    dsimp only
    rw [fkKeyFrom_parts _ (fun q hq => hin q (List.mem_cons_of_mem _ hq)) hqs]
    simp

/-- **Values with one parent's key have one key with letters.** -/
theorem fkKey_of_rowKey {tb : Table} {vals : List Bytes} {v : Vals} {k : Bytes} (hlen : vals.length = tb.key.length)
    (hrow : rowKey tb (vals.map some) = .ok k) (hkey : primaryKey tb v = .ok k)
    (hvals : ∀ p ∈ (tb.key.map tb.col).zip vals, InColumn p.1 p.2)
    (hv : ∀ i ∈ tb.key, InColumn (tb.col i) (v.getD i [])) :
    ∃ want, fkKey vals = some want ∧ fkKey (tb.key.map (fun i => v.getD i [])) = some want := by
  unfold rowKey at hrow
  split_ifs at hrow
  obtain ⟨ps, hps, rfl⟩ := rowKeyFrom_parts hrow
  obtain ⟨qs, hqs, he⟩ := primaryKeyFrom_parts hkey
  have hin : ∀ p ∈ (tb.key.map tb.col).zip (tb.key.map (fun i => v.getD i [])), InColumn p.1 p.2 := by
    intro p hp
    rw [List.zip_map'] at hp
    obtain ⟨i, hi, rfl⟩ := List.mem_map.1 hp
    exact hv i hi
  have hfst : ((tb.key.map tb.col).zip vals).map Prod.fst = tb.key.map tb.col := List.map_fst_zip (by simp [hlen])
  have hfst' : ((tb.key.map tb.col).zip (tb.key.map (fun i => v.getD i []))).map Prod.fst = tb.key.map tb.col :=
    List.map_fst_zip (by simp)
  have hpq : ps = qs := parts_unique (hfst.trans hfst'.symm) hvals hin hps hqs he
  subst hpq
  have hchild := fkKeyFrom_parts [] hvals hps
  have hparent := fkKeyFrom_parts [] hin hqs
  rw [hfst, List.map_snd_zip (by simp [hlen])] at hchild
  rw [hfst', List.map_snd_zip (by simp)] at hparent
  exact ⟨_, hchild, hparent⟩

end Gsql
end Gbasic
