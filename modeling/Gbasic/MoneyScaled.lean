import Gbasic.MoneyScale
/-!
# MoneyScaled — what scaling by a mantissa and a power of ten comes to

The wide step rounds the quotient it is given (`muldiv_iff`), and what it is given is the factor cut to eighteen places
(`cutFactor`): the units are multiplied or divided by that (`scale_iff`), where it is itself in the range of the units.
-/
namespace Gbasic
namespace Money

open Eval (CString Number Raise)

/-! ## One wide step -/

theorem inLong_neg {z : Int} : InLong (-z) ∧ -z ≠ LLONG_MIN ↔ InLong z ∧ z ≠ LLONG_MIN := by
  unfold InLong LLONG_MIN
  omega

/-- **The quotient is rounded**, and refused where that is out of range. -/
theorem muldiv_iff {units mul den : Int} (hden : 0 < den) (z : Int) :
    moneyMuldiv units mul den = .ok z ↔ Accepts .round ((units * mul : Int) / (den : ℚ)) z := by
  unfold moneyMuldiv
  rw [if_neg (not_le.2 hden)]
  by_cases hzero : units = 0 ∨ mul = 0
  · rw [if_pos hzero, mul_eq_zero.2 hzero, Int.cast_zero, zero_div]
    have hround : Rounds (0 : ℚ) 0 := rounds_zero.2 (by norm_num)
    constructor
    · intro h
      cases h
      exact ⟨by decide, hround⟩
    · intro h
      rw [h.2.unique hround]
  rw [if_neg hzero]
  dsimp only
  obtain ⟨d, rfl⟩ := Int.eq_ofNat_of_zero_le hden.le
  have hd : 0 < d := by exact_mod_cast hden
  rw [Int.toNat_natCast]
  have hround := @rounds_div ℚ _ _ _ ((units * mul).natAbs / d) ((units * mul).natAbs % d) d (Nat.mod_lt _ hd)
  rw [mul_comm _ d, Nat.div_add_mod] at hround
  have hup : (if d < (units * mul).natAbs % d * 2 ∨ (units * mul).natAbs % d * 2 = d ∧
      (units * mul).natAbs / d % 2 ≠ 0 then
      (units * mul).natAbs / d + 1 else (units * mul).natAbs / d) =
        if roundUp ((units * mul).natAbs / d) ((units * mul).natAbs % d) d then (units * mul).natAbs / d + 1
          else (units * mul).natAbs / d := by
    refine if_congr ?_ rfl rfl
    unfold roundUp
    omega
  rw [hup]
  have hx : ((units * mul : Int) : ℚ) / ((d : Int) : ℚ) =
      sign (decide (units * mul < 0)) * ((units * mul).natAbs / d) := by
    have habs : ((units * mul : Int) : ℚ) = sign (decide (units * mul < 0)) * (units * mul).natAbs := by
      rw [← signed_cast]
      congr 1
      unfold signed
      by_cases h : units * mul < 0
      · rw [if_pos (decide_eq_true h)]
        omega
      · rw [if_neg (by simpa using h)]
        omega
    rw [habs, mul_div_assoc, Int.cast_natCast]
  rw [hx]
  generalize (if roundUp ((units * mul).natAbs / d) ((units * mul).natAbs % d) d then (units * mul).natAbs / d + 1
    else (units * mul).natAbs / d) = mag at hround
  by_cases hover : limitOf (decide (units * mul < 0)) < mag
  · rw [if_pos hover]
    exact accepts_error hround (.inl hover) _ z
  · rw [if_neg hover]
    exact accepts_ok hround (not_lt.1 hover) (fun h => by cases h) z

theorem scaleSigned_iff {units mul den : Int} (hden : den ≠ 0) (z : Int) :
    scaleSigned units mul den = .ok z ↔
      Accepts .round ((units * mul : Int) / (den : ℚ)) z ∧ ¬ (den < 0 ∧ z = LLONG_MIN) := by
  unfold scaleSigned
  by_cases hneg : den < 0
  · rw [if_pos hneg]
    have hmul := @muldiv_iff units mul (-den) (by omega)
    rw [Int.cast_neg, div_neg] at hmul
    generalize ((units * mul : Int) : ℚ) / (den : ℚ) = x at hmul ⊢
    rcases h : moneyMuldiv units mul (-den) with m | r
    · refine iff_of_false (fun h => by cases h) ?_
      rintro ⟨⟨hlong, hround⟩, hmin⟩
      have hz : z ≠ LLONG_MIN := fun heq => hmin ⟨hneg, heq⟩
      have hback := (hmul (-z)).2 ⟨(inLong_neg.2 ⟨hlong, hz⟩).1, Rounds.neg hround⟩
      rw [h] at hback
      cases hback
    · obtain ⟨hlong, hround⟩ := (hmul r).1 h
      have hround' : Rounds x (-r) := by
        have := Rounds.neg hround
        rwa [neg_neg] at this
      dsimp only
      rw [if_pos hneg]
      by_cases hmin : r = LLONG_MIN
      · rw [if_pos hmin]
        refine iff_of_false (fun h => by cases h) ?_
        rintro ⟨⟨hz, hz'⟩, -⟩
        obtain rfl : z = -r := Rounds.unique hz' hround'
        rw [hmin] at hz
        exact absurd hz (by decide)
      · rw [if_neg hmin]
        have hback := inLong_neg.2 ⟨hlong, hmin⟩
        constructor
        · intro h
          cases h
          exact ⟨⟨hback.1, hround'⟩, fun h => hback.2 h.2⟩
        · rintro ⟨⟨-, hz'⟩, -⟩
          rw [Rounds.unique hz' hround']
  · rw [if_neg hneg]
    have hmul := @muldiv_iff units mul den (by omega) z
    rw [and_iff_left (fun h => hneg h.1), ← hmul]
    rcases moneyMuldiv units mul den with m | r
    · rfl
    · dsimp only
      rw [if_neg hneg]

theorem scaleSigned_error {units mul den : Int} {m : String} (hden : den ≠ 0)
    (h : scaleSigned units mul den = .error m) :
    m = MONEY_ERR_RANGE := by
  have habs : ¬ (if den < 0 then -den else den) ≤ 0 := by split_ifs <;> omega
  unfold scaleSigned moneyMuldiv at h
  rw [if_neg habs] at h
  dsimp only at h
  by_cases hzero : units = 0 ∨ mul = 0
  · rw [if_pos hzero] at h
    dsimp only at h
    split_ifs at h
    all_goals
      cases h
      rfl
  · rw [if_neg hzero] at h
    split at h
    next m' hm =>
      cases h
      split_ifs at hm
      all_goals
        cases hm
        rfl
    next r hr =>
      split_ifs at h
      all_goals
        cases h
        rfl

/-! ## The factor cut -/

def cutDecimal : Nat → Int → Int
  | 0, num => num
  | k + 1, num => cutDecimal k (trimDigit num)

def cutFactor (num dexp : Int) : ℚ := cutDecimal (dexp - 18).toNat num * (10 : ℚ) ^ (-min dexp 18)

theorem trimDigit_abs (num : Int) : (trimDigit num).natAbs ≤ num.natAbs := by
  have hsum := Int.mul_tdiv_add_tmod num 10
  unfold trimDigit
  rcases le_or_gt 0 num with h | h
  · have h1 := Int.tmod_nonneg 10 h
    have h2 := Int.tmod_lt_of_pos num (show (0 : Int) < 10 by decide)
    split_ifs <;> omega
  · have h1 : num.tmod 10 ≤ 0 := by
      have := Int.tmod_nonneg 10 (show 0 ≤ -num by omega)
      rw [Int.neg_tmod] at this
      omega
    have h2 : -10 < num.tmod 10 := by
      have := Int.tmod_lt_of_pos (-num) (show (0 : Int) < 10 by decide)
      rw [Int.neg_tmod] at this
      omega
    split_ifs <;> omega

theorem cutDecimal_abs (k : Nat) (num : Int) : (cutDecimal k num).natAbs ≤ num.natAbs := by
  induction k generalizing num with
  | zero => exact le_rfl
  | succ k ih => exact (ih (trimDigit num)).trans (trimDigit_abs num)

theorem cutDecimal_zero (k : Nat) : cutDecimal k 0 = 0 := by
  have := cutDecimal_abs k 0
  omega

theorem trimLow_eq (num dexp : Int) : (trimLow num dexp).1 = cutDecimal (dexp - 18).toNat num ∧
    ((trimLow num dexp).1 ≠ 0 → (trimLow num dexp).2 = min dexp 18) := by
  fun_induction trimLow num dexp with
  | case1 num dexp h ih =>
    have hk : (dexp - 18).toNat = (dexp - 1 - 18).toNat + 1 := by omega
    rw [hk]
    refine ⟨ih.1, fun hne => ?_⟩
    rw [ih.2 hne]
    omega
  | case2 num dexp h =>
    rcases not_and_or.1 h with h | h
    · rw [show (dexp - 18).toNat = 0 by omega]
      refine ⟨rfl, fun _ => ?_⟩
      show dexp = _
      omega
    · obtain rfl := not_not.1 h
      exact ⟨(cutDecimal_zero _).symm, fun hne => absurd rfl hne⟩

theorem raiseHigh_near {num dexp : Int} (h : -18 ≤ dexp ∨ num = 0) : raiseHigh num dexp = some (num, dexp) := by
  rw [raiseHigh, if_neg]
  rintro ⟨h1, h2⟩
  rcases h with h | h
  · omega
  · exact h2 h

theorem raiseHigh_far {num dexp : Int} {p : Int × Int} (hlt : dexp < -18) (hne : num ≠ 0)
    (h : raiseHigh num dexp = some p) :
    p.2 = -18 ∧ 10 ≤ p.1.natAbs := by
  induction hk : (-18 - dexp).toNat generalizing num dexp with
  | zero => omega
  | succ k ih =>
    rw [raiseHigh, if_pos ⟨hlt, hne⟩] at h
    unfold mulOverflow at h
    split_ifs at h with hlong
    · dsimp only at h
      by_cases hlast : dexp + 1 < -18
      · exact ih hlast (by omega) h (by omega)
      · rw [raiseHigh_near (.inl (by omega))] at h
        cases h
        refine ⟨?_, ?_⟩
        · show dexp + 1 = -18
          omega
        · show 10 ≤ (num * 10).natAbs
          omega

/-! ## Scaling -/

def InRange (x : ℚ) : Prop := -9223372036854775808 ≤ x ∧ x < 9223372036854775808

theorem inRange_cast {n : Int} : InRange n ↔ InLong n := by
  unfold InRange InLong
  constructor
  · rintro ⟨h1, h2⟩
    exact ⟨by exact_mod_cast h1, Int.lt_add_one_iff.1 (by exact_mod_cast h2)⟩
  · rintro ⟨h1, h2⟩
    exact ⟨by exact_mod_cast h1, by exact_mod_cast Int.lt_add_one_iff.2 h2⟩

theorem mulOverflow_ne_zero {a b c : Int} (h : mulOverflow a b = some c) (ha : a ≠ 0) (hb : b ≠ 0) : c ≠ 0 := by
  unfold mulOverflow at h
  split_ifs at h
  cases h
  exact mul_ne_zero ha hb

theorem pow10_eq {e : Nat} (h : e ≤ 18) : moneyPow10 e = 10 ^ e := by
  unfold moneyPow10
  rw [if_neg (by omega), Int.toNat_natCast]

theorem inRange_places {num : Int} (h : InLong num) (e : Nat) : InRange (num * (10 : ℚ) ^ (-(e : Int))) := by
  have hpos : (0 : ℚ) < (10 : ℚ) ^ (-(e : Int)) := zpow_pos (by norm_num) _
  have hle : (10 : ℚ) ^ (-(e : Int)) ≤ 1 := zpow_le_one_of_nonpos₀ (by norm_num) (by omega)
  obtain ⟨h1, h2⟩ := inRange_cast.2 h
  rcases le_or_gt 0 (num : ℚ) with hn | hn
  · have hup : (num : ℚ) * (10 : ℚ) ^ (-(e : Int)) ≤ num := mul_le_of_le_one_right hn hle
    have hlow := mul_nonneg hn hpos.le
    exact ⟨by linarith, by linarith⟩
  · have hlow : (num : ℚ) ≤ num * (10 : ℚ) ^ (-(e : Int)) := by
      have := mul_le_mul_of_nonpos_left hle hn.le
      linarith
    have hup : (num : ℚ) * (10 : ℚ) ^ (-(e : Int)) < 0 := mul_neg_of_neg_of_pos hn hpos
    exact ⟨by linarith, by linarith⟩

theorem zpow_whole (num : Int) (e : Nat) : (num : ℚ) * (10 : ℚ) ^ (-(-(e : Int))) = ((num * 10 ^ e : Int) : ℚ) := by
  rw [neg_neg, zpow_natCast]
  push_cast
  rfl

section
variable {units num dexp : Int}

theorem scaleMul_iff (hne : num ≠ 0) (hlong : InLong num) (h18 : -18 ≤ dexp) (h18' : dexp ≤ 18) (z : Int) :
    scaleMul units num dexp = .ok z ↔
      InRange (num * (10 : ℚ) ^ (-dexp)) ∧ Accepts .round (units * (num * (10 : ℚ) ^ (-dexp))) z := by
  unfold scaleMul
  rw [if_neg hne]
  rcases le_or_gt 0 dexp with h | h
  · obtain ⟨e, rfl⟩ := Int.eq_ofNat_of_zero_le h
    have hpos : (0 : Int) < 10 ^ e := by positivity
    rw [if_pos h, pow10_eq (by omega), if_neg hpos.ne', scaleSigned_iff hpos.ne',
      and_iff_left (fun h => absurd h.1 hpos.not_gt), and_iff_right (inRange_places hlong e)]
    have hx : ((units * num : Int) : ℚ) / ((10 ^ e : Int) : ℚ) = units * (num * (10 : ℚ) ^ (-(e : Int))) := by
      rw [zpow_neg, zpow_natCast]
      push_cast
      ring
    rw [hx]
  · obtain ⟨e, he⟩ := Int.eq_ofNat_of_zero_le (show 0 ≤ -dexp by omega)
    obtain rfl : dexp = -(e : Int) := by omega
    have hpos : (0 : Int) < 10 ^ e := by positivity
    rw [if_neg (not_le.2 h), neg_neg, pow10_eq (by omega), if_neg hpos.ne', ← neg_neg (e : Int), zpow_whole,
      inRange_cast]
    unfold mulOverflow
    by_cases hover : InLong (num * 10 ^ e)
    · rw [if_pos hover]
      dsimp only
      rw [scaleSigned_iff one_ne_zero, and_iff_left (fun h => by omega), and_iff_right hover]
      push_cast
      rw [div_one]
    · rw [if_neg hover]
      exact iff_of_false (fun h => by cases h) (fun h => hover h.1)

theorem scaleDiv_iff (hne : num ≠ 0) (hlong : InLong num) (h18 : -18 ≤ dexp) (h18' : dexp ≤ 18) (z : Int) :
    scaleDiv units num dexp = .ok z ↔ InRange (num * (10 : ℚ) ^ (-dexp)) ∧
      Accepts .round (units / (num * (10 : ℚ) ^ (-dexp))) z ∧ ¬ (num < 0 ∧ z = LLONG_MIN) := by
  unfold scaleDiv
  rw [if_neg hne]
  rcases le_or_gt 0 dexp with h | h
  · obtain ⟨e, rfl⟩ := Int.eq_ofNat_of_zero_le h
    have hpos : (0 : Int) < 10 ^ e := by positivity
    rw [if_pos h, pow10_eq (by omega), if_neg hpos.ne', scaleSigned_iff hne, and_iff_right (inRange_places hlong e)]
    have hx : ((units * 10 ^ e : Int) : ℚ) / (num : ℚ) = units / (num * (10 : ℚ) ^ (-(e : Int))) := by
      rw [zpow_neg, zpow_natCast, ← div_eq_mul_inv, div_div_eq_mul_div]
      push_cast
      rfl
    rw [hx]
  · obtain ⟨e, he⟩ := Int.eq_ofNat_of_zero_le (show 0 ≤ -dexp by omega)
    obtain rfl : dexp = -(e : Int) := by omega
    have hpos : (0 : Int) < 10 ^ e := by positivity
    rw [if_neg (not_le.2 h), neg_neg, pow10_eq (by omega), if_neg hpos.ne', ← neg_neg (e : Int), zpow_whole,
      inRange_cast]
    unfold mulOverflow
    by_cases hover : InLong (num * 10 ^ e)
    · have hden : num * 10 ^ e ≠ 0 := mul_ne_zero hne hpos.ne'
      have hsign : num * 10 ^ e < 0 ↔ num < 0 := by
        rw [mul_neg_iff]
        constructor
        · rintro (h | h)
          · exact absurd h.2 hpos.not_gt
          · exact h.1
        · exact fun h => .inr ⟨h, hpos⟩
      rw [if_pos hover]
      dsimp only
      rw [scaleSigned_iff hden, and_iff_right hover, hsign, mul_one]
    · rw [if_neg hover]
      exact iff_of_false (fun h => by cases h) (fun h => hover h.1)

theorem scale_far {divide : Bool} (hne : num ≠ 0) (hnum : 10 ≤ num.natAbs) :
    (if divide then scaleDiv units num (-18) else scaleMul units num (-18)) = .error MONEY_ERR_RANGE := by
  have hpow : moneyPow10 (-(-18)) = 10 ^ 18 := by decide
  have hover : mulOverflow num (10 ^ 18) = none := by
    refine if_neg (fun h => ?_)
    unfold InLong at h
    omega
  cases divide
  · rw [if_neg Bool.false_ne_true]
    unfold scaleMul
    rw [if_neg hne, if_neg (by decide), hpow, if_neg (by decide), hover]
  · rw [if_pos rfl]
    unfold scaleDiv
    rw [if_neg hne, if_neg (by decide), hpow, if_neg (by decide), hover]

def Scales (divide : Bool) (units : Int) (x : ℚ) (z : Int) : Prop :=
  if divide then x ≠ 0 ∧ InRange x ∧ Accepts .round (units / x) z ∧ ¬ (x < 0 ∧ z = LLONG_MIN)
  else InRange x ∧ Accepts .round (units * x) z

theorem cutFactor_zero {num dexp : Int} : cutFactor num dexp = 0 ↔ cutDecimal (dexp - 18).toNat num = 0 := by
  have hpos : (0 : ℚ) < (10 : ℚ) ^ (-min dexp 18) := zpow_pos (by norm_num) _
  unfold cutFactor
  rw [mul_eq_zero, or_iff_left hpos.ne', Int.cast_eq_zero]

theorem cutFactor_neg {num dexp : Int} : cutFactor num dexp < 0 ↔ cutDecimal (dexp - 18).toNat num < 0 := by
  have hpos : (0 : ℚ) < (10 : ℚ) ^ (-min dexp 18) := zpow_pos (by norm_num) _
  unfold cutFactor
  constructor
  · intro h
    by_contra hge
    exact absurd (mul_nonneg (Int.cast_nonneg (not_lt.1 hge)) hpos.le) (not_le.2 h)
  · exact fun h => mul_neg_of_neg_of_pos (Int.cast_lt_zero.2 h) hpos

theorem scaleParts_zero {divide : Bool} (hzero : cutFactor num dexp = 0) : scaleParts units num dexp divide =
    if divide then .error "division by zero" else .ok 0 := by
  have h0 : (trimLow num dexp).1 = 0 := (trimLow_eq num dexp).1.trans (cutFactor_zero.1 hzero)
  unfold scaleParts
  rw [raiseHigh_near (.inr h0)]
  dsimp only
  unfold scaleDiv scaleMul
  rw [if_pos h0, if_pos h0]

/-- **The units are scaled by the factor cut**, in its range. -/
theorem scaleParts_iff {divide : Bool} (hlong : num.natAbs ≤ 9223372036854775807) (z : Int) :
    scaleParts units num dexp divide = .ok z ↔ Scales divide units (cutFactor num dexp) z := by
  by_cases hzero : cutFactor num dexp = 0
  · rw [scaleParts_zero hzero]
    unfold Scales
    cases divide
    · have hround : Rounds ((units : ℚ) * 0) 0 := rounds_zero.2 (by norm_num)
      rw [if_neg Bool.false_ne_true, if_neg Bool.false_ne_true, hzero]
      constructor
      · intro h
        cases h
        exact ⟨by unfold InRange; norm_num, by decide, hround⟩
      · rintro ⟨-, -, hz⟩
        rw [Rounds.unique hz hround]
    · rw [if_pos rfl, if_pos rfl]
      exact iff_of_false (fun h => by cases h) (fun h => h.1 hzero)
  · obtain ⟨h1, h2⟩ := trimLow_eq num dexp
    have hne := fun h => hzero (cutFactor_zero.2 h)
    have habs := cutDecimal_abs (dexp - 18).toNat num
    have h2 := h2 (by rw [h1]; exact hne)
    have hcut : InLong (cutDecimal (dexp - 18).toNat num) := by
      unfold InLong
      omega
    unfold scaleParts
    rw [h1, h2]
    have hsign := @cutFactor_neg num dexp
    unfold Scales
    rcases le_or_gt (-18) dexp with h | h
    · rw [raiseHigh_near (.inl (by omega))]
      dsimp only
      cases divide
      · exact scaleMul_iff hne hcut (by omega) (by omega) z
      · rw [if_pos rfl, if_pos rfl, and_iff_right hzero, hsign]
        exact scaleDiv_iff hne hcut (by omega) (by omega) z
    · have hfar : ¬ InRange (cutFactor num dexp) := by
        obtain ⟨e, he⟩ := Int.eq_ofNat_of_zero_le (show 0 ≤ -min dexp 18 by omega)
        have hbig : (10 : Int) ^ 19 ≤ 10 ^ e := pow_le_pow_right₀ (by norm_num) (by omega)
        have hone : 1 ≤ (cutDecimal (dexp - 18).toNat num).natAbs := Int.natAbs_pos.2 hne
        unfold cutFactor
        rw [he, zpow_natCast]
        intro hrange
        have hprod : InLong (cutDecimal (dexp - 18).toNat num * 10 ^ e) := by
          rw [← inRange_cast]
          push_cast
          exact hrange
        generalize (10 : Int) ^ e = p at hbig hprod
        generalize cutDecimal (dexp - 18).toNat num = n at hone hprod
        have hmul : p ≤ (n * p).natAbs := by
          rw [Int.natAbs_mul]
          push_cast
          have := abs_of_nonneg (show 0 ≤ p by omega)
          nlinarith [abs_nonneg n]
        unfold InLong at hprod
        omega
      have hright : ¬ (if divide then cutFactor num dexp ≠ 0 ∧ InRange (cutFactor num dexp) ∧
          Accepts .round (units / cutFactor num dexp) z ∧ ¬ (cutFactor num dexp < 0 ∧ z = LLONG_MIN)
          else InRange (cutFactor num dexp) ∧ Accepts .round (units * cutFactor num dexp) z) := by
        cases divide
        · exact fun h => hfar h.1
        · exact fun h => hfar h.2.1
      refine iff_of_false (fun heq => ?_) hright
      rcases hraise : raiseHigh (cutDecimal (dexp - 18).toNat num) (min dexp 18) with _ | ⟨n, d⟩
      · rw [hraise] at heq
        cases heq
      · obtain ⟨rfl, hbig⟩ := raiseHigh_far (by omega) hne hraise
        rw [hraise] at heq
        dsimp only at heq
        rw [scale_far (by omega) hbig] at heq
        cases heq

/-- It is refused for its range, or for a divisor taken for zero. -/
theorem scaleParts_error {divide : Bool} {m : String} (h : scaleParts units num dexp divide = .error m) :
    m = MONEY_ERR_RANGE ∨ divide = true ∧ cutFactor num dexp = 0 := by
  by_cases hzero : cutFactor num dexp = 0
  · rw [scaleParts_zero hzero] at h
    cases divide
    · cases h
    · exact .inr ⟨rfl, hzero⟩
  left
  have hne := fun h => hzero (cutFactor_zero.2 h)
  obtain ⟨h1, -⟩ := trimLow_eq num dexp
  rw [← h1] at hne
  have hlast : ∀ n d, n ≠ 0 → (if divide then scaleDiv units n d else scaleMul units n d) = .error m →
      m = MONEY_ERR_RANGE := by
    intro n d hn herr
    cases divide
    · rw [if_neg Bool.false_ne_true] at herr
      unfold scaleMul at herr
      rw [if_neg hn] at herr
      split_ifs at herr with hsign hpow hpow
      · exact scaleSigned_error hpow herr
      · cases herr
        rfl
      · rcases hmul : mulOverflow n (moneyPow10 (-d)) with _ | b
        · rw [hmul] at herr
          cases herr
          rfl
        · rw [hmul] at herr
          exact scaleSigned_error one_ne_zero herr
    · rw [if_pos rfl] at herr
      unfold scaleDiv at herr
      rw [if_neg hn] at herr
      split_ifs at herr with hsign hpow hpow
      · cases herr
        rfl
      · exact scaleSigned_error hn herr
      · rcases hmul : mulOverflow n (moneyPow10 (-d)) with _ | b
        · rw [hmul] at herr
          cases herr
          rfl
        · rw [hmul] at herr
          exact scaleSigned_error (mulOverflow_ne_zero hmul hn hpow) herr
  unfold scaleParts at h
  rcases hraise : raiseHigh (trimLow num dexp).1 (trimLow num dexp).2 with _ | ⟨n, d⟩
  · rw [hraise] at h
    cases h
    rfl
  · rw [hraise] at h
    refine hlast n d ?_ h
    by_cases hfar : (trimLow num dexp).2 < -18
    · have := (raiseHigh_far hfar hne hraise).2
      omega
    · rw [raiseHigh_near (.inl (by omega))] at hraise
      cases hraise
      exact hne

end

end Money
end Gbasic
