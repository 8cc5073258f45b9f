import Gbasic.KeyRound
/-!
# KeySame — when two values have one component

Two absences, two NaNs, or two values of one kind that the language's `=` finds equal are the same column
(`SameColumn`), and these are just the values of one component (`code_eq_iff`).  Money's currencies are told apart by
their letters, so this is so where letters, number and exponent name one currency (`OneName`).
-/
namespace Gbasic
namespace Key

open Same (evalEquals)

def absent (v : Value) : Prop := v = .null ∨ v = .unknown

instance : ∀ v, Decidable (absent v)
  | .null => isTrue (Or.inl rfl)
  | .unknown => isTrue (Or.inr rfl)
  | .bool _ | .number _ | .string _ | .money _ | .datetime _ => isFalse (by rintro (h | h) <;> cases h)

def nan : Value → Prop
  | .number n => Same.key n.said = .nan
  | _ => False

instance : ∀ v, Decidable (nan v)
  | .number n => inferInstanceAs (Decidable (Same.key n.said = .nan))
  | .null | .unknown | .bool _ | .string _ | .money _ | .datetime _ => isFalse (fun h => h)

def SameColumn (v w : Value) : Prop :=
  absent v ∧ absent w ∨ nan v ∧ nan w ∨ v.rank = w.rank ∧ evalEquals v.said w.said = .bool true

instance (v w : Value) : Decidable (SameColumn v w) := inferInstanceAs (Decidable (_ ∨ _ ∨ _))

def OneName (m m' : Money) : Prop := (m.alpha = m'.alpha ↔ m.numeric = m'.numeric) ∧
    (m.numeric = m'.numeric → m.exponent = m'.exponent)

/-! ## Numbers -/

theorem place_inf {n : Num} {neg : Bool} (h : Same.key n.said = .inf neg) :
    n.place = toLex (if neg then 0 else 2, 0) := by
  cases n with
  | exact v => cases h
  | inexact bits =>
    have hd : Double.ofBits bits = .inf neg := h
    by_cases hf : bits.toNat / 2 ^ 52 % 2 ^ 11 = 0x7ff
    · rw [Double.ofBits, show (2 ^ 11 - 1 : Nat) = 0x7ff from rfl] at hd
      dsimp only at hd
      rw [if_pos hf] at hd
      split at hd
      · rename_i hz
        injection hd with hneg
        have hlt := bits.isLt
        rw [Num.place, if_pos hf, if_neg (not_not.2 hz)]
        by_cases hs : bits.toNat / 2 ^ 63 = 1
        · rw [← hneg, if_pos hs, decide_eq_true (by omega)]
          rfl
        · rw [← hneg, if_neg hs, decide_eq_false (by omega)]
          rfl
      · cases hd
    · rw [ofBits_parts hf] at hd
      cases hd

theorem place_nan {n : Num} (h : Same.key n.said = .nan) : n.place = toLex (3, 0) := by
  cases n with
  | exact v => cases h
  | inexact bits =>
    have hd : Double.ofBits bits = .nan := h
    by_cases hf : bits.toNat / 2 ^ 52 % 2 ^ 11 = 0x7ff
    · rw [Double.ofBits, show (2 ^ 11 - 1 : Nat) = 0x7ff from rfl] at hd
      dsimp only at hd
      rw [if_pos hf] at hd
      split at hd
      · cases hd
      · rename_i hz
        rw [Num.place, if_pos hf, if_pos hz]
    · rw [ofBits_parts hf] at hd
      cases hd

theorem place_eq_iff (n w : Num) : n.place = w.place ↔ Same.key n.said = Same.key w.said := by
  cases hn : Same.key n.said <;> cases hw : Same.key w.said <;>
    simp only [place_nan, place_inf, place_of_finite, hn, hw, EmbeddingLike.apply_eq_iff_eq, Prod.mk.injEq,
      Double.finite.injEq, Double.inf.injEq, true_and, and_true, reduceCtorEq, iff_false]
  · split <;> decide
  · simp
  · split <;> decide
  · split <;> split <;> simp_all
  · split <;> simp
  · simp
  · split <;> simp

theorem equals_number (n w : Num) : evalEquals (.number n.said) (.number w.said) = .bool true ↔
    Same.key n.said ≠ .nan ∧ Same.key n.said = Same.key w.said := by
  by_cases hn : Same.key n.said = .nan
  · refine iff_of_false (fun h => ?_) (fun h => h.1 hn)
    cases n with
    | exact x => cases hn
    | inexact a =>
      have ha : Double.ofBits a = .nan := hn
      cases w with
      | exact y => simp [Num.said, evalEquals, Same.numberCompareExactly, ha, Double.compareInt] at h
      | inexact b => simp [Num.said, evalEquals, Same.key, ha, Double.eq, Double.isNan] at h
  by_cases hw : Same.key w.said = .nan
  · refine iff_of_false (fun h => ?_) (fun h => hn (h.2.trans hw))
    cases w with
    | exact x => cases hw
    | inexact b =>
      have hb : Double.ofBits b = .nan := hw
      cases n with
      | exact x => simp [Num.said, evalEquals, Same.numberCompareExactly, hb, Double.compareInt] at h
      | inexact a =>
        have ha : Double.ofBits a ≠ .nan := hn
        simp [Num.said, evalEquals, Same.key, ha, hb, Double.eq, Double.isNan] at h
  · have hplain : ∀ m : Eval.Number, Same.key m ≠ .nan → (Same.Value.number m).plain = true := by
      intro m hm
      rw [Same.Value.plain, Bool.not_eq_true', ← Bool.not_eq_true, Same.numberIsNan_iff]
      exact hm
    have heq := (Same.evalEquals_iff (x := .number n.said) (y := .number w.said) rfl (hplain _ hn) (hplain _ hw)).2
      (fun hs => hs)
    rw [heq, Same.storageEqual, Same.Answer.bool.injEq, Same.numberSameValue_iff]
    exact ⟨fun h => ⟨hn, h⟩, fun h => h.2⟩

/-! ## Columns -/

def Letters (m : Money) : Prop := ∀ b ∈ m.alpha, 1 < b.val

theorem code_number (n w : Num) : n.shape.code = w.shape.code ↔ Same.key n.said = Same.key w.said := by
  rw [← place_eq_iff]
  refine ⟨fun h => ?_, fun h => code_of_place h⟩
  have hs := Shape.settle_code n.shape_ok w.shape_ok
  rw [h, settle_self, Option.some.injEq, eq_comm, cmp_eq_eq_iff, ← n.place_shape, ← w.place_shape] at hs
  exact hs

theorem code_string (s t : Bytes) : escape s ++ [byte 0, byte 0] = escape t ++ [byte 0, byte 0] ↔ s = t := by
  refine ⟨fun h => ?_, fun h => by rw [h]⟩
  have hs := unescape_escape [] s
  rw [h, unescape_escape] at hs
  exact hs.symm

theorem putSigned_inj {a b : BitVec 64} (h : putSigned 8 a.toNat = putSigned 8 b.toNat) : a = b := by
  have hs := settle_putSigned (w := 8) (by decide) a b
  rw [h, settle_self, Option.some.injEq, eq_comm, cmp_eq_eq_iff] at hs
  exact BitVec.eq_of_toInt_eq hs

theorem putCurrency_inj {m m' : Money} (hm : Letters m) (hm' : Letters m')
    (h : putCurrency m.numeric.toNat m.alpha = putCurrency m'.numeric.toNat m'.alpha) :
    m.alpha = m'.alpha ∧ (m.alpha = [] → m.numeric = m'.numeric) := by
  -- letters do not begin as a number does
  have hapart : ∀ {m : Money} {l u : Bytes}, Letters m → m.alpha ≠ [] → m.alpha ++ l ≠ byte 1 :: u := by
    intro m l u hm hne he
    rcases ha : m.alpha with _ | ⟨b, bs⟩
    · exact hne ha
    · rw [ha, List.cons_append] at he
      have hb := hm b (by rw [ha]; exact List.mem_cons_self ..)
      rw [(List.cons.inj he).1] at hb
      exact absurd hb (by decide)
  rw [putCurrency, putCurrency, List.cons.injEq] at h
  have h := h.2
  by_cases ha : m.alpha = []
  · by_cases ha' : m'.alpha = []
    · rw [if_neg (not_not.2 ha), if_neg (not_not.2 ha'), List.cons.injEq] at h
      have hn := congrArg beNat h.2
      rw [beNat_bePut 2 _ m.numeric.isLt, beNat_bePut 2 _ m'.numeric.isLt] at hn
      exact ⟨ha.trans ha'.symm, fun _ => BitVec.eq_of_toNat_eq hn⟩
    · rw [if_neg (not_not.2 ha), if_pos ha'] at h
      exact absurd h.symm (hapart hm' ha')
  · by_cases ha' : m'.alpha = []
    · rw [if_pos ha, if_neg (not_not.2 ha')] at h
      exact absurd h (hapart hm ha)
    · rw [if_pos ha, if_pos ha'] at h
      exact ⟨List.append_cancel_right h, fun h0 => absurd h0 ha⟩

theorem code_money {m m' : Money} (hm : Letters m) (hm' : Letters m') (hname : OneName m m') :
    Value.code ⟨false, false⟩ (.money m) = Value.code ⟨false, false⟩ (.money m') ↔
      evalEquals (Value.money m).said (Value.money m').said = .bool true := by
  have hhead : ∀ m : Money, moneyHead m ⟨false, false⟩ = putCurrency m.numeric.toNat m.alpha := fun _ => rfl
  rw [Value.code, Value.code, Value.said, Value.said, evalEquals, Same.Answer.bool.injEq, decide_eq_true_eq, hhead,
    hhead]
  constructor
  · intro h
    obtain ⟨hc, hu⟩ := List.append_inj' h (by rw [length_putSigned, length_putSigned])
    have hn := hname.1.1 (putCurrency_inj hm hm' hc).1
    exact ⟨⟨hn, by rw [hname.2 hn]⟩, putSigned_inj hu⟩
  · rintro ⟨⟨hn, -⟩, hu⟩
    have hn : m.numeric = m'.numeric := hn
    have hu : m.units = m'.units := hu
    rw [hname.1.2 hn, hn, hu]

theorem code_datetime (d e : DateTime) : dateCode d = dateCode e ↔
    evalEquals (Value.datetime d).said (Value.datetime e).said = .bool true := by
  have hs := settle_dateCode d e
  have hcode : dateCode d = dateCode e ↔ d.compare e = .eq := by
    refine ⟨fun h => ?_, fun h => eq_of_settle_eq (h ▸ hs)⟩
    rw [h, settle_self, Option.some.injEq] at hs
    exact hs.symm
  have hprec : (d.precision : BitVec 32) = (e.precision : BitVec 32) ↔ d.precision = e.precision := by
    have hd := d.named
    have he := e.named
    rw [← BitVec.toNat_inj]
    simp
    omega
  rw [hcode, Value.said, Value.said, evalEquals, Same.Answer.bool.injEq, decide_eq_true_eq,
    Same.datetimeCompareExact_eq, DateTime.compare]
  dsimp only
  rw [hprec]
  cases d.timeOnly <;> cases e.timeOnly <;>
    simp [Ordering.then_eq_eq, cmp_eq_eq_iff, BitVec.toInt_inj, and_assoc]

def Named (v w : Value) : Prop :=
  match v, w with
  | .money m, .money m' => Letters m ∧ Letters m' ∧ OneName m m'
  | _, _ => True

theorem code_ne_of_rank {v w : Value} (h : v.rank ≠ w.rank) : v.code ⟨false, false⟩ ≠ w.code ⟨false, false⟩ := by
  intro he
  rcases Nat.lt_or_gt_of_ne h with hr | hr
  · have hs := settle_kinds ⟨false, false⟩ hr
    rw [he, settle_self] at hs
    cases hs
  · have hs := settle_kinds' ⟨false, false⟩ hr
    rw [he, settle_self] at hs
    cases hs

/-- **Two values have one component just where they are the same.** -/
theorem code_eq_iff {v w : Value} (h : Named v w) :
    v.code ⟨false, false⟩ = w.code ⟨false, false⟩ ↔ SameColumn v w := by
  by_cases hr : v.rank = w.rank
  · cases v with
    | null =>
      cases w with
      | null => exact iff_of_true rfl (Or.inl ⟨Or.inl rfl, Or.inl rfl⟩)
      | unknown => exact iff_of_true rfl (Or.inl ⟨Or.inl rfl, Or.inr rfl⟩)
      | _ => exact absurd hr (by simp [Value.rank])
    | unknown =>
      cases w with
      | null => exact iff_of_true rfl (Or.inl ⟨Or.inr rfl, Or.inl rfl⟩)
      | unknown => exact iff_of_true rfl (Or.inl ⟨Or.inr rfl, Or.inr rfl⟩)
      | _ => exact absurd hr (by simp [Value.rank])
    | bool b =>
      cases w with
      | bool c =>
        cases b <;> cases c <;>
          simp [SameColumn, absent, nan, Value.code, Value.rank, Value.said, evalEquals, Same.numberOrZero, Double.eq,
            Double.isNan] <;>
          decide
      | _ => exact absurd hr (by simp [Value.rank])
    | number n =>
      cases w with
      | number m =>
        rw [Value.code, Value.code, code_number, SameColumn, Value.said, Value.said, equals_number]
        have ha : ∀ n : Num, ¬absent (.number n) := by
          rintro n (h | h) <;> cases h
        constructor
        · intro he
          by_cases hn : Same.key n.said = .nan
          · exact Or.inr (Or.inl ⟨hn, he.symm.trans hn⟩)
          · exact Or.inr (Or.inr ⟨rfl, hn, he⟩)
        · rintro (⟨habs, -⟩ | ⟨hn, hm⟩ | ⟨-, -, he⟩)
          · exact absurd habs (ha n)
          · exact Eq.trans hn (Eq.symm hm)
          · exact he
      | _ => exact absurd hr (by simp [Value.rank])
    | string s =>
      cases w with
      | string t =>
        rw [Value.code, Value.code, List.cons.injEq, code_string, SameColumn, Value.said, Value.said, evalEquals,
          Same.Answer.bool.injEq, decide_eq_true_eq, Same.stringCompare_eq]
        simp [absent, nan, Value.rank]
      | _ => exact absurd hr (by simp [Value.rank])
    | money m =>
      cases w with
      | money m' =>
        obtain ⟨hm, hm', hname⟩ := h
        rw [code_money hm hm' hname, SameColumn]
        simp [absent, nan, Value.rank]
      | _ => exact absurd hr (by simp [Value.rank])
    | datetime d =>
      cases w with
      | datetime e =>
        rw [Value.code, Value.code, List.cons.injEq, code_datetime, SameColumn]
        simp [absent, nan, Value.rank]
      | _ => exact absurd hr (by simp [Value.rank])
  · refine iff_of_false (code_ne_of_rank hr) (fun hs => hr ?_)
    rcases hs with ⟨hv, hw⟩ | ⟨hv, hw⟩ | ⟨he, -⟩
    · rcases hv with rfl | rfl <;> rcases hw with rfl | rfl <;> rfl
    · cases v with
      | number n =>
        cases w with
        | number m => rfl
        | _ => cases hw
      | _ => cases hv
    · exact he

end Key
end Gbasic
