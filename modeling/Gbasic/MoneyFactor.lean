import Gbasic.MoneyRead
import Gbasic.MoneyScaled
/-!
# MoneyFactor — money scaled exactly, where it is

A factor is read off the decimal that is written for its double (`parts_plain`), so that scaling is by that decimal,
cut.  It is exact where the cut factor does as well as the number (`money_scale_iff`).
-/
namespace Gbasic
namespace Money

open Eval (CString Number Raise)
open Double (nearest halfEven ofBits)

/-! ## The decimal -/

/-- A decimal's text, without blanks. -/
structure Plain (n : Numeral) (s : List Byte) : Prop where
  digits : ∀ d ∈ n.digits, d < 10
  some : n.digits ≠ []
  spelled : ∃ sg point ex, SpellsSign n.negative sg ∧ SpellsPoint n.frac point ∧ SpellsExponent n.exponent ex ∧
    s = sg ++ (digitBytes n.whole ++ (point ++ ex))

def Numeral.mantissa (n : Numeral) : Int := signed n.negative (digitNumber n.digits)

def Numeral.dexp (n : Numeral) : Int := n.frac.length - n.exponent

theorem Numeral.value_eq (n : Numeral) : n.value = n.mantissa * (10 : ℚ) ^ (-n.dexp) := by
  unfold Numeral.value Numeral.mantissa Numeral.dexp
  rw [signed_cast, neg_sub, mul_assoc]

theorem mantissa_digits {r : List Byte} : ∀ {l : List Nat} (st : Mantissa), (∀ d ∈ l, d < 10) →
    st.mag * 10 ^ l.length + digitNumber l < 10 ^ 17 → mantissa st (digitBytes l ++ r) =
      mantissa ⟨st.mag * 10 ^ l.length + digitNumber l, if st.after then st.frac + l.length else st.frac, st.after,
        st.seen || decide (l ≠ [])⟩ r
  | [], st, _, _ => by
    cases st with
    | mk mag frac after seen => simp [digitBytes, digitNumber_nil]
  | d :: l, st, hl, hlt => by
    have hd := hl d (List.mem_cons_self ..)
    obtain ⟨hdigit, hval⟩ := digitByte hd
    have hpoint : byte (48 + d) ≠ byte '.'.toNat := by
      intro h
      rw [h] at hdigit
      exact absurd hdigit (by decide)
    have hnum : st.mag * 10 ^ (d :: l).length + digitNumber (d :: l) =
        (st.mag * 10 + d) * 10 ^ l.length + digitNumber l := by
      rw [digitNumber_cons, List.length_cons]
      ring
    rw [hnum] at hlt
    have hsmall : st.mag * 10 + d ≤ (st.mag * 10 + d) * 10 ^ l.length := Nat.le_mul_of_pos_right _ (by positivity)
    show mantissa st (byte (48 + d) :: (digitBytes l ++ r)) = _
    rw [mantissa, if_neg hpoint, hdigit, if_neg (by decide), hval, if_neg (by omega),
      mantissa_digits _ (fun e he => hl e (List.mem_cons_of_mem _ he)) hlt, hnum]
    congr 1
    cases st.after
    · simp
    · simp only [if_true, List.length_cons]
      push_cast
      simp [add_comm, add_left_comm]

theorem mantissa_stops {r : List Byte} (hr : Stops r) (hpoint : r.head? ≠ some (byte '.'.toNat)) (st : Mantissa) :
    mantissa st r = .ok (st, r) := by
  cases r with
  | nil => rfl
  | cons b m => rw [mantissa, if_neg (fun h => hpoint (by rw [h]; rfl)), if_pos (hr b m rfl)]

theorem exponentDigits_eq : ∀ {l : List Nat} (e : Nat), (∀ d ∈ l, d < 10) → e * 10 ^ l.length + digitNumber l < 10000 →
    exponentDigits e (digitBytes l) = e * 10 ^ l.length + digitNumber l
  | [], e, _, _ => by
    rw [List.length_nil, pow_zero, mul_one, digitNumber_nil, add_zero]
    rfl
  | d :: l, e, hl, hlt => by
    obtain ⟨hdigit, hval⟩ := digitByte (hl d (List.mem_cons_self ..))
    have hnum : e * 10 ^ (d :: l).length + digitNumber (d :: l) = (e * 10 + d) * 10 ^ l.length + digitNumber l := by
      rw [digitNumber_cons, List.length_cons]
      ring
    rw [hnum] at hlt
    have hsmall : e * 10 + d ≤ (e * 10 + d) * 10 ^ l.length := Nat.le_mul_of_pos_right _ (by positivity)
    show exponentDigits e (byte (48 + d) :: digitBytes l) = _
    rw [exponentDigits, hdigit, if_pos rfl, hval, if_pos (by omega),
      exponentDigits_eq _ (fun e he => hl e (List.mem_cons_of_mem _ he)) hlt, hnum]

theorem scalarExponent_spelled {e : Int} {s : List Byte} (h : SpellsExponent e s) (hlt : e.natAbs < 10000) :
    scalarExponent s = e := by
  cases h with
  | none => rfl
  | @some b minus sg l hb hsg hne hl =>
    have hnum : digitNumber l < 10000 := by
      cases minus
      · simpa using hlt
      · simpa using hlt
    obtain ⟨d, l', rfl⟩ := List.exists_cons_of_ne_nil hne
    have hd := hl d (List.mem_cons_self ..)
    have hread : readSign (sg ++ digitBytes (d :: l')) = (minus, digitBytes (d :: l')) := by
      refine readSign_spelled hsg (fun c m hcm => ?_)
      obtain ⟨rfl, -⟩ := List.cons.inj hcm
      exact ⟨(digit_sign hd).1, (digit_sign hd).2.1⟩
    have hdigits := exponentDigits_eq 0 hl (by rw [zero_mul, zero_add]; exact hnum)
    rw [zero_mul, zero_add] at hdigits
    rw [scalarExponent, if_pos hb, hread]
    dsimp only
    rw [hdigits]

/-- **The parts are the decimal's**, of at most seventeen digits. -/
theorem parts_plain {n : Numeral} {s : CString} (h : Plain n s.bytes) (hshort : digitNumber n.digits < 10 ^ 17)
    (hnear : n.exponent.natAbs < 10000) : moneyScalarParts s = .ok (n.mantissa, n.dexp) := by
  obtain ⟨hdigits, hsome, sg, point, ex, hsg, hpoint, hex, hs⟩ := h
  obtain ⟨hstops, hdot⟩ := @exponent_stops _ _ [] hex (fun b hb => by cases hb)
  rw [List.append_nil] at hstops hdot
  rcases n with ⟨negative, w, f, e⟩
  dsimp only [Numeral.digits] at *
  have hw : ∀ d ∈ w, d < 10 := fun d hd => hdigits d (List.mem_append_left _ hd)
  have hf : ∀ d ∈ f, d < 10 := fun d hd => hdigits d (List.mem_append_right _ hd)
  have hnum : digitNumber (w ++ f) = digitNumber w * 10 ^ f.length + digitNumber f := digitNumber_append _ _
  have hsmall : digitNumber w ≤ digitNumber w * 10 ^ f.length := Nat.le_mul_of_pos_right _ (by positivity)
  have hread : readSign s.bytes = (negative, digitBytes w ++ (point ++ ex)) := by
    rw [hs]
    refine readSign_spelled hsg (fun b m hbm => ?_)
    cases w with
    | nil =>
      cases hpoint with
      | none => exact absurd rfl hsome
      | point l =>
        obtain ⟨rfl, -⟩ := List.cons.inj hbm
        decide
    | cons d w =>
      obtain ⟨rfl, -⟩ := List.cons.inj hbm
      have hsign := digit_sign (hdigits d (List.mem_cons_self ..))
      exact ⟨hsign.1, hsign.2.1⟩
  have hmant : ∃ after, mantissa ⟨0, 0, false, false⟩ (digitBytes w ++ (point ++ ex)) =
      .ok (⟨digitNumber (w ++ f), f.length, after, true⟩, ex) := by
    rw [mantissa_digits _ hw (by rw [zero_mul, zero_add]; omega), zero_mul, zero_add, if_neg Bool.false_ne_true,
      Bool.false_or]
    cases hpoint with
    | none =>
      have hne : w ≠ [] := fun h => hsome (by rw [h]; rfl)
      rw [List.nil_append, mantissa_stops hstops hdot, decide_eq_true hne, List.append_nil]
      exact ⟨false, rfl⟩
    | point l =>
      have hne : (decide (w ≠ []) || decide (f ≠ [])) = true := by
        rw [Bool.or_eq_true, decide_eq_true_eq, decide_eq_true_eq]
        by_contra hnot
        obtain ⟨h1, h2⟩ := not_or.1 hnot
        exact hsome (by rw [not_not.1 h1, not_not.1 h2]; rfl)
      rw [List.cons_append, mantissa, if_pos rfl, mantissa_digits _ hf (by dsimp only; omega),
        mantissa_stops hstops hdot]
      dsimp only
      rw [hne, ← hnum, if_pos rfl, zero_add]
      exact ⟨true, rfl⟩
  obtain ⟨after, hmant⟩ := hmant
  unfold moneyScalarParts
  rw [hread]
  dsimp only
  rw [hmant]
  dsimp only
  rw [if_neg (by decide), scalarExponent_spelled hex hnear]
  rfl

/-! ## The double -/

theorem nearest_bits {m : Nat} (hpos : m ≠ 0) (hlt : m < 2 ^ 64) :
    2 ^ 52 ≤ nearest m 0 ∧ nearest m 0 < 2047 * 2 ^ 52 := by
  have hlog : Nat.log2 m < 64 := (Nat.log2_lt hpos).2 hlt
  obtain ⟨-, hself⟩ := (Nat.log2_eq_iff hpos).1 (rfl : Nat.log2 m = Nat.log2 m)
  have hunit : max ((Nat.log2 m : Int) + 0 - 52) (-1074) = (Nat.log2 m : Int) - 52 := by omega
  rw [nearest, if_neg hpos]
  dsimp only
  rw [hunit]
  have hsig : (if (Nat.log2 m : Int) - 52 ≤ 0 then m * 2 ^ (0 - ((Nat.log2 m : Int) - 52)).toNat
      else halfEven m ((Nat.log2 m : Int) - 52 - 0).toNat) ≤ 2 ^ 53 := by
    by_cases h : (Nat.log2 m : Int) - 52 ≤ 0
    · rw [if_pos h, show (0 - ((Nat.log2 m : Int) - 52)).toNat = 52 - Nat.log2 m by omega]
      refine (Nat.mul_le_mul_right _ hself.le).trans ?_
      rw [← pow_add]
      exact Nat.pow_le_pow_right (by decide) (by omega)
    · rw [if_neg h, show ((Nat.log2 m : Int) - 52 - 0).toNat = Nat.log2 m - 52 by omega]
      have hdiv : m / 2 ^ (Nat.log2 m - 52) < 2 ^ 53 := by
        rw [Nat.div_lt_iff_lt_mul (by positivity), ← pow_add]
        exact lt_of_lt_of_le hself (Nat.pow_le_pow_right (by decide) (by omega))
      unfold halfEven
      dsimp only
      split_ifs <;> omega
  generalize (if (Nat.log2 m : Int) - 52 ≤ 0 then m * 2 ^ (0 - ((Nat.log2 m : Int) - 52)).toNat
      else halfEven m ((Nat.log2 m : Int) - 52 - 0).toNat) = c at hsig ⊢
  have hu : ((Nat.log2 m : Int) - 52 + 1074).toNat = Nat.log2 m + 1022 := by omega
  rw [hu]
  omega

theorem ofBits_finite {b : BitVec 64} (h : b.toNat / 2 ^ 52 % 2 ^ 11 ≠ 0)
    (h' : b.toNat / 2 ^ 52 % 2 ^ 11 ≠ 2 ^ 11 - 1) :
    ∃ q, q ≠ 0 ∧ ofBits b = .finite q := by
  unfold ofBits
  dsimp only
  rw [if_neg h', if_neg h]
  refine ⟨_, ?_, rfl⟩
  have hq : (0 : ℚ) < (2 ^ 52 + (b.toNat % 2 ^ 52 : Nat)) * 2 ^ (b.toNat / 2 ^ 52 % 2 ^ 11) / 2 ^ 1075 := by positivity
  split_ifs
  · exact neg_ne_zero.2 hq.ne'
  · exact hq.ne'

theorem numberValue_exact {i : BitVec 64} :
    ∃ q, ofBits (numberValue (.exact i)) = .finite q ∧ (q = 0 → i.toInt = 0) := by
  by_cases hzero : i.toInt = 0
  · refine ⟨0, ?_, fun _ => hzero⟩
    have hbits : numberValue (.exact i) = 0 := by
      rw [numberValue, hzero]
      decide
    rw [hbits, ofBits, show (0 : BitVec 64).toNat = 0 from rfl]
    norm_num
  have hlt : i.toInt.natAbs < 2 ^ 64 := by
    have h1 := BitVec.toInt_lt (x := i)
    have h2 := BitVec.le_toInt (x := i)
    omega
  obtain ⟨hlow, hhigh⟩ := nearest_bits (Int.natAbs_ne_zero.2 hzero) hlt
  have hval : (numberValue (.exact i)).toNat = (if i.toInt < 0 then 2 ^ 63 else 0) + nearest i.toInt.natAbs 0 := by
    rw [numberValue, BitVec.toNat_ofNat, Nat.mod_eq_of_lt]
    split_ifs <;> omega
  obtain ⟨q, hq, heq⟩ := @ofBits_finite (numberValue (.exact i)) (by rw [hval]; split_ifs <;> omega)
    (by rw [hval]; split_ifs <;> omega)
  exact ⟨q, heq, fun h => absurd h hq⟩

/-! ## What is asked of a number -/

/-- An integer, or a double that is not infinite or a NaN. -/
def Finite : Number → Prop
  | .exact _ => True
  | .inexact b => ∃ q, ofBits b = .finite q

theorem finite_value {n : Number} (h : Finite n) : ∃ q, ofBits (numberValue n) = .finite q := by
  cases n with
  | exact i =>
    obtain ⟨q, hq, -⟩ := @numberValue_exact i
    exact ⟨q, hq⟩
  | inexact b => exact h

/-- The decimals written for the finite doubles: of seventeen digits at most, an exponent of four, and zero for zero. -/
structure Writes (formatNumber : FormatNumber) (decimal : BitVec 64 → Numeral) : Prop where
  plain : ∀ b q, ofBits b = .finite q → Plain (decimal b) (formatNumber b).bytes
  short : ∀ b q, ofBits b = .finite q → digitNumber (decimal b).digits < 10 ^ 17
  near : ∀ b q, ofBits b = .finite q → (decimal b).exponent.natAbs < 10000
  zero : ∀ b, ofBits b = .finite 0 → (decimal b).value = 0

/-- A number, as the integer or as the decimal of the double. -/
def factor (decimal : BitVec 64 → Numeral) : Number → ℚ
  | .exact i => i.toInt
  | .inexact b => (decimal b).value

/-- A number as it is taken: its double's decimal, cut to eighteen places. -/
def taken (decimal : BitVec 64 → Numeral) (n : Number) : ℚ :=
  cutFactor (decimal (numberValue n)).mantissa (decimal (numberValue n)).dexp

def divisionByZero : List Byte := text "division by zero"

/-- Money scaled is the exact product or quotient rounded, where that is in range, and never a division by zero. -/
structure ScalesExactly (formatNumber : FormatNumber) (decimal : BitVec 64 → Numeral) (units : Int) (n : Number)
    (divide : Bool) : Prop where
  rounds : ∀ z, moneyScaled formatNumber units n divide = .ok z ↔
    Accepts .round (if divide then units / factor decimal n else units * factor decimal n) z
  divides : ∀ e, moneyScaled formatNumber units n divide = .error e → e.message ≠ divisionByZero

/-- Two are rounded to the same answer in range, or to none. -/
def Same (x y : ℚ) : Prop := ∀ z, Accepts .round x z ↔ Accepts .round y z

def OutOfRange (x : ℚ) : Prop := ∀ z, ¬ Accepts .round x z

/-- The number as taken does as well as the number.  In the range of the units, what it makes is rounded to the same,
but to the least of the range by no divisor that is negative; past it, what the number makes is out of range. -/
def Served (units : Int) (x y : ℚ) (divide : Bool) : Prop :=
  if divide then
    x ≠ 0 ∧ (InRange x → ∀ z, Accepts .round (units / y) z ↔ Accepts .round (units / x) z ∧ ¬ (x < 0 ∧ z = LLONG_MIN)) ∧
      (¬ InRange x → OutOfRange (units / y))
  else (InRange x → Same (units * x) (units * y)) ∧ (¬ InRange x → OutOfRange (units * y))

theorem served_iff {units : Int} {x y : ℚ} {divide : Bool} :
    (∀ z, Scales divide units x z ↔ Accepts .round (if divide then units / y else units * y) z) ∧
    (divide = true → x ≠ 0) ↔
      Served units x y divide := by
  unfold Scales Served Same OutOfRange
  cases divide
  · by_cases hrange : InRange x
    · simp [hrange]
    · simp [hrange]
  · by_cases hrange : InRange x
    · simp only [hrange, if_true, true_and, true_imp_iff, not_true_eq_false, false_imp_iff, and_true]
      constructor
      · rintro ⟨h, hne⟩
        exact ⟨hne, fun z => by rw [← h z, and_iff_right hne]⟩
      · rintro ⟨hne, h⟩
        exact ⟨fun z => by rw [h z, and_iff_right hne], hne⟩
    · simp only [hrange, if_true, false_and, and_false, false_iff, false_imp_iff, not_false_eq_true, true_imp_iff,
        true_and]
      exact and_comm

section
variable {formatNumber : FormatNumber} {decimal : BitVec 64 → Numeral}

theorem moneyScaled_eq (hw : Writes formatNumber decimal) {n : Number} {divide : Bool} (hn : Finite n)
    (hzero : divide = true → factor decimal n ≠ 0) (units : Int) : moneyScaled formatNumber units n divide =
      raiseMoney (scaleParts units (decimal (numberValue n)).mantissa (decimal (numberValue n)).dexp divide) := by
  obtain ⟨q, hq⟩ := finite_value hn
  have hnot : ¬ (divide = true ∧ ofBits (numberValue n) = .finite 0) := by
    rintro ⟨hdiv, h0⟩
    refine hzero hdiv ?_
    cases n with
    | exact i =>
      obtain ⟨r, hr, hi⟩ := @numberValue_exact i
      rw [h0] at hr
      cases hr
      show ((i.toInt : Int) : ℚ) = 0
      rw [hi rfl, Int.cast_zero]
    | inexact b => exact hw.zero b h0
  unfold moneyScaled moneyScaleBy
  rw [if_neg hnot, parts_plain (hw.plain _ q hq) (hw.short _ q hq) (hw.near _ q hq)]

/-- **Scaling is exact where the number as it is taken does as well as the number.** -/
theorem money_scale_iff (hw : Writes formatNumber decimal) (units : Int) {n : Number} {divide : Bool} (hn : Finite n)
    (hzero : divide = true → factor decimal n ≠ 0) : ScalesExactly formatNumber decimal units n divide ↔
      Served units (taken decimal n) (factor decimal n) divide := by
  obtain ⟨q, hq⟩ := finite_value hn
  have hshort := hw.short _ q hq
  have hmant : (decimal (numberValue n)).mantissa.natAbs ≤ 9223372036854775807 := by
    unfold Numeral.mantissa signed
    split_ifs <;> omega
  have heq := moneyScaled_eq hw hn hzero units
  have hrounds : ∀ z, moneyScaled formatNumber units n divide = .ok z ↔ Scales divide units (taken decimal n) z := by
    intro z
    rw [heq, taken, ← scaleParts_iff hmant z]
    rcases scaleParts units (decimal (numberValue n)).mantissa (decimal (numberValue n)).dexp divide with m | w
    · exact iff_of_false (fun h => by cases h) (fun h => by cases h)
    · exact ⟨fun h => by cases h; rfl, fun h => by cases h; rfl⟩
  rw [← served_iff]
  constructor
  · rintro ⟨hr, hd⟩
    refine ⟨fun z => (hrounds z).symm.trans (hr z), fun hdiv htaken => ?_⟩
    rw [scaleParts_zero htaken, if_pos hdiv] at heq
    exact hd _ heq rfl
  · rintro ⟨hr, hne⟩
    refine ⟨fun z => (hrounds z).trans (hr z), fun e he hmsg => ?_⟩
    rw [heq] at he
    rcases hs : scaleParts units (decimal (numberValue n)).mantissa (decimal (numberValue n)).dexp divide with m | w
    · rw [hs] at he
      cases he
      rcases scaleParts_error hs with rfl | ⟨hdiv, h0⟩
      · exact absurd hmsg (by decide)
      · exact hne hdiv h0
    · rw [hs] at he
      cases he

theorem taken_short {b : BitVec 64} (h : (decimal b).dexp ≤ 18) :
    taken decimal (.inexact b) = factor decimal (.inexact b) := by
  show cutFactor (decimal b).mantissa (decimal b).dexp = (decimal b).value
  unfold cutFactor
  rw [min_eq_left h, show ((decimal b).dexp - 18).toNat = 0 by omega, Numeral.value_eq]
  rfl

end

/-! ## A half, and past the integers that are doubles -/

/-- What is written for a half, for the double at which not every integer is one, and for zero. -/
def sampleDecimal (b : BitVec 64) : Numeral :=
  if b = 0x3fe0000000000000 then ⟨false, [0], [5], 0⟩
  else if b = 0x4340000000000000 then ⟨false, [9, 0, 0, 7, 1, 9, 9, 2, 5, 4, 7, 4, 0, 9, 9, 2], [], 0⟩
  else ⟨false, [0], [], 0⟩

def sampleText (b : BitVec 64) : CString :=
  .of (if b = 0x3fe0000000000000 then text "0.5" else if b = 0x4340000000000000 then text "9007199254740992"
  else text "0")

theorem sample_writes : Writes sampleText sampleDecimal := by
  have hplain : ∀ b, Plain (sampleDecimal b) (sampleText b).bytes ∧ digitNumber (sampleDecimal b).digits < 10 ^ 17 ∧
      (sampleDecimal b).exponent.natAbs < 10000 := by
    intro b
    unfold sampleDecimal sampleText
    split_ifs
    · exact ⟨⟨by decide, by decide, [], _, [], .none, .point [5], .none, by decide⟩, by decide, by decide⟩
    · exact ⟨⟨by decide, by decide, [], [], [], .none, .none, .none, by decide⟩, by decide, by decide⟩
    · exact ⟨⟨by decide, by decide, [], [], [], .none, .none, .none, by decide⟩, by decide, by decide⟩
  refine ⟨fun b _ _ => (hplain b).1, fun b _ _ => (hplain b).2.1, fun b _ _ => (hplain b).2.2, fun b h => ?_⟩
  have hhalf : b ≠ 0x3fe0000000000000 := by
    rintro rfl
    obtain ⟨q, hq, heq⟩ := @ofBits_finite 0x3fe0000000000000 (by decide) (by decide)
    rw [h] at heq
    cases heq
    exact hq rfl
  have hint : b ≠ 0x4340000000000000 := by
    rintro rfl
    obtain ⟨q, hq, heq⟩ := @ofBits_finite 0x4340000000000000 (by decide) (by decide)
    rw [h] at heq
    cases heq
    exact hq rfl
  unfold sampleDecimal
  rw [if_neg hhalf, if_neg hint]
  norm_num [Numeral.value, Numeral.digits, digitNumber]

theorem half_finite : Finite (.inexact 0x3fe0000000000000) := by
  obtain ⟨q, -, heq⟩ := @ofBits_finite 0x3fe0000000000000 (by decide) (by decide)
  exact ⟨q, heq⟩

theorem half_factor : factor sampleDecimal (.inexact 0x3fe0000000000000) = 1 / 2 := by
  norm_num [factor, sampleDecimal, Numeral.value, sign, Numeral.digits, digitNumber, Nat.ofDigits]

theorem halved : ScalesExactly sampleText sampleDecimal 101 (.inexact 0x3fe0000000000000) true := by
  refine (money_scale_iff sample_writes 101 half_finite (fun _ => by rw [half_factor]; norm_num)).2 ?_
  rw [taken_short (by decide), half_factor]
  refine ⟨by norm_num, fun _ z => ⟨fun h => ⟨h, fun hneg => ?_⟩, fun h => h.1⟩, fun h => absurd ?_ h⟩
  · exact absurd hneg.1 (by norm_num)
  · unfold InRange
    norm_num

/-- One unit by the first integer that is no double's is a unit less. -/
theorem integer_through_double : ¬ ∀ (formatNumber : FormatNumber) (decimal : BitVec 64 → Numeral),
    Writes formatNumber decimal → ∀ (units : Int) (n : Number) (divide : Bool), Finite n →
      (divide = true → factor decimal n ≠ 0) → ScalesExactly formatNumber decimal units n divide := by
  intro h
  have hexact := h _ _ sample_writes 1 (.exact 9007199254740993) false trivial (fun h => by cases h)
  have hrun : moneyScaled sampleText 1 (.exact 9007199254740993) false = .ok 9007199254740992 := by decide +kernel
  have hrounds := ((hexact.rounds 9007199254740992).1 hrun).2
  have hint : Rounds (((1 : Int) : ℚ) * factor sampleDecimal (.exact 9007199254740993)) 9007199254740993 := by
    have hcast : ((1 : Int) : ℚ) * factor sampleDecimal (.exact 9007199254740993) = ((9007199254740993 : Int) : ℚ) := by
      rw [Int.cast_one, one_mul]
      rfl
    rw [hcast]
    exact Rounds.intCast _
  exact absurd (Rounds.unique hint hrounds) (by decide)

end Money
end Gbasic
