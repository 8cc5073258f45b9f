import Gbasic.Double
import Gbasic.KeyDelimit
import Gbasic.KeyOrder
import Gbasic.ValueEqualSame
/-!
# KeyBack — a component read back as a value

`keyValue` is `gsql_key_value`.  A key does not say how its number was written, so a whole number of sixty-four bits
comes back exact and any other as the double it was; an absence comes back unknown, and a time of day without a date.
What comes back has the component that was read, and is the value under the language's equality (`ComesBack`).
-/
namespace Gbasic
namespace Key

variable {N m : Nat} {e : Int} {negative : Bool}

/-! ## Reading a component back -/

def ldexp (bits : Nat) (exponent : Int) : Nat :=
  Double.nearest (doubleParts bits).2.1 ((doubleParts bits).2.2 + exponent)

/-- The whole number that an exponent and a fraction make, where sixty-four bits hold it and its fraction is spent. -/
def wholeOf (exponent : Int) (fraction : Nat) : Option Nat :=
  if 0 ≤ exponent ∧ exponent ≤ 63 ∧
      (if exponent = 0 then fraction = 0 else fraction * 2 ^ exponent.toNat % 2 ^ 64 = 0) then
    some (if exponent = 0 then 1 else 2 ^ exponent.toNat ||| fraction / 2 ^ (64 - exponent.toNat))
  else none

/-- A double's fifty-three significant bits are the fraction's top fifty-two and the one that leads. -/
def doubleOf (negative : Bool) (exponent : Int) (fraction : Nat) : Nat :=
  let d := ldexp (Double.nearest (2 ^ 53 + fraction / 2 ^ 11) (-53)) exponent
  if negative then 2 ^ 63 + d else d

def numberOf (negative : Bool) (biased fraction : Nat) : Bytes :=
  let exponent : Int := biased - EXPONENT_BIAS
  let double := byte SER_NUMBER :: byte 0 :: lePut 8 (doubleOf negative exponent fraction)
  match wholeOf exponent fraction with
  | none => double
  | some m =>
    if m ≤ (if negative then 2 ^ 63 else 2 ^ 63 - 1) then
      byte SER_NUMBER :: byte 1 :: lePut 8 (if negative then (2 ^ 64 - m) % 2 ^ 64 else m)
    else double

def unescape : Bytes → Bytes
  | a :: b :: l =>
    if a.val = 0 then if b.val = 0 then [] else byte 0 :: unescape l else a :: unescape (b :: l)
  | _ => []

/-- `n` signed fields of four bytes, as they are written little-endian, and the bytes behind them. -/
def fieldsOf : Nat → Bytes → Bytes × Bytes
  | 0, l => ([], l)
  | n + 1, l =>
    let p := fieldsOf n (l.drop 4)
    (lePut 4 ((beNat (l.take 4) + 2 ^ 32 - 2 ^ 31) % 2 ^ 32) ++ p.1, p.2)

def datetimeOf (l : Bytes) : Bytes :=
  let timeOnly := l.headD 0
  let p := fieldsOf (if timeOnly.val ≠ 0 then 3 else 6) l.tail
  byte SER_DATETIME :: ((if timeOnly.val ≠ 0 then List.replicate 12 0 else []) ++ p.1 ++ [timeOnly, p.2.headD 0])

def valueOf : Bytes → Option Bytes
  | [] => none
  | t :: l =>
    let tag := t.val
    if tag = KEY_ABSENT then some [byte SER_UNKNOWN]
    else if tag = KEY_BOOL then some [byte SER_BOOL, byte (if (l.headD 0).val ≠ 0 then 1 else 0)]
    else if tag = KEY_ZERO then some (byte SER_NUMBER :: byte 1 :: lePut 8 0)
    else if tag = KEY_POS_INF ∨ tag = KEY_NEG_INF ∨ tag = KEY_NAN then
      some (byte SER_NUMBER :: byte 0 :: lePut 8 (if tag = KEY_NAN then 0x7ff8000000000000
        else if tag = KEY_POS_INF then 0x7ff0000000000000 else 0xfff0000000000000))
    else if tag = KEY_NEGATIVE ∨ tag = KEY_POSITIVE then
      let negative := decide (tag = KEY_NEGATIVE)
      let biased := beNat (l.take 2)
      let fraction := beNat ((l.drop 2).take 8)
      some (numberOf negative (if negative then 0xffff - biased else biased)
        (if negative then 2 ^ 64 - 1 - fraction else fraction))
    else if tag = KEY_STRING then
      some (byte SER_STRING :: (uleb (unescape l).length ++ unescape l))
    else if tag = KEY_DATETIME then some (datetimeOf l)
    else none

/-- `gsql_key_value`: a status, the bytes with the value appended, and how many bytes the component took. -/
def keyValue (out bytes : Bytes) (fl : KeyFlags) : KeyStatus × Bytes × Nat :=
  match keySkip bytes fl with
  | (.ok, n) =>
    match valueOf ((turned fl bytes).take n) with
    | none => (.notIndexable, out, 0)
    | some v => (.ok, out ++ v, n)
  | (st, _) => (st, out, 0)

/-! ## Whole numbers -/

theorem wholeOf_cast {k F : Nat} (hk : k ≤ 63) (hF : F < 2 ^ 64) :
    wholeOf k F = some N ↔ F + 2 ^ 64 = N * 2 ^ (64 - k) := by
  have hsplit : 2 ^ (64 - k) * 2 ^ k = 2 ^ 64 := by
    rw [← pow_add]
    congr 1
    omega
  by_cases hz : k = 0
  · subst hz
    constructor
    · intro h
      unfold wholeOf at h
      by_cases hF0 : F = 0
      · rw [if_pos ⟨by omega, by omega, by rw [if_pos (by rfl)]; exact hF0⟩, if_pos (by rfl)] at h
        cases h
        omega
      · rw [if_neg (fun hc => hF0 (by have := hc.2.2; rwa [if_pos (by rfl)] at this))] at h
        cases h
    · intro h
      rw [wholeOf, if_pos ⟨by omega, by omega, by rw [if_pos (by rfl)]; omega⟩, if_pos (by rfl)]
      congr 1
      omega
  · have hz' : ¬ (k : Int) = 0 := by omega
    constructor
    · intro h
      unfold wholeOf at h
      by_cases hspent : F * 2 ^ k % 2 ^ 64 = 0
      · rw [if_pos ⟨by omega, by omega, by rw [if_neg hz']; exact hspent⟩, if_neg hz', Int.toNat_natCast] at h
        have hdvd : 2 ^ (64 - k) ∣ F := by
          have hd := Nat.dvd_of_mod_eq_zero hspent
          rw [← hsplit] at hd
          exact Nat.dvd_of_mul_dvd_mul_right (by positivity) hd
        obtain ⟨q, rfl⟩ := hdvd
        have hq : q < 2 ^ k := by
          rw [← hsplit] at hF
          exact Nat.lt_of_mul_lt_mul_left hF
        rw [Nat.mul_div_cancel_left _ (by positivity), or_of_lt hq] at h
        cases h
        rw [Nat.add_mul, Nat.mul_comm (2 ^ k), hsplit, Nat.mul_comm q, Nat.add_comm]
      · rw [if_neg (fun hc => hspent (by have := hc.2.2; rwa [if_neg hz'] at this))] at h
        cases h
    · intro h
      have hle : 2 ^ k ≤ N := by
        have hle : 2 ^ (64 - k) * 2 ^ k ≤ 2 ^ (64 - k) * N := by
          rw [hsplit, Nat.mul_comm, ← h]
          omega
        exact Nat.le_of_mul_le_mul_left hle (by positivity)
      obtain ⟨q, rfl⟩ := Nat.exists_eq_add_of_le hle
      have hFq : F = 2 ^ (64 - k) * q := by
        rw [Nat.add_mul, Nat.mul_comm (2 ^ k), hsplit, Nat.mul_comm q] at h
        omega
      have hq : q < 2 ^ k := by
        rw [hFq, ← hsplit] at hF
        exact Nat.lt_of_mul_lt_mul_left hF
      have hspent : F * 2 ^ k % 2 ^ 64 = 0 := by rw [hFq, Nat.mul_right_comm, hsplit, Nat.mul_mod_right]
      rw [wholeOf, if_pos ⟨by omega, by omega, by rw [if_neg hz']; exact hspent⟩, if_neg hz', Int.toNat_natCast, hFq,
        Nat.mul_div_cancel_left _ (by positivity), or_of_lt hq]
where
  or_of_lt {k q : Nat} (h : q < 2 ^ k) : 2 ^ k ||| q = 2 ^ k + q := by
    have := Nat.two_pow_add_eq_or_of_lt h 1
    rw [Nat.mul_one] at this
    exact this.symm

/-- **A normal form is whole exactly where its value is a whole number**, of sixty-four bits. -/
theorem wholeOf_iff {x : Int} {F : Nat} (hF : F < 2 ^ 64) :
    wholeOf x F = some N ↔ N < 2 ^ 64 ∧ ((F + 2 ^ 64 : ℕ) : ℚ) * 2 ^ (x - 64) = N := by
  have hscale : (0 : ℚ) < 2 ^ (x - 64) := zpow_pos (by norm_num) _
  by_cases hx : 0 ≤ x ∧ x ≤ 63
  · obtain ⟨k, rfl⟩ := Int.eq_ofNat_of_zero_le hx.1
    have hk : k ≤ 63 := by omega
    have hpow : (2 : ℚ) ^ ((k : Int) - 64) * 2 ^ (64 - k) = 1 := by
      rw [← zpow_natCast, ← zpow_add₀ (by norm_num), Nat.cast_sub (by omega)]
      push_cast
      rw [show (k : Int) - 64 + (64 - k) = 0 by ring, zpow_zero]
    have hpos : (0 : ℚ) < 2 ^ (64 - k) := by positivity
    rw [wholeOf_cast hk hF, ← mul_left_inj' hpos.ne', mul_assoc, hpow, mul_one]
    have hcast : ((F + 2 ^ 64 : ℕ) : ℚ) = N * 2 ^ (64 - k) ↔ F + 2 ^ 64 = N * 2 ^ (64 - k) := by
      exact_mod_cast Iff.rfl
    rw [hcast]
    refine ⟨fun h => ⟨?_, h⟩, fun h => h.2⟩
    have hone : 2 ≤ 2 ^ (64 - k) := by
      calc 2 = 2 ^ 1 := rfl
        _ ≤ 2 ^ (64 - k) := Nat.pow_le_pow_right (by decide) (by omega)
    nlinarith
  · rw [wholeOf, if_neg (fun h => hx ⟨h.1, h.2.1⟩)]
    constructor
    · intro h
      cases h
    rintro ⟨hN, hval⟩
    exfalso
    -- the value is at least `2 ^ x`, and less than twice that
    have hlow : (2 : ℚ) ^ x ≤ N := by
      rw [← hval, show (x : Int) = 64 + (x - 64) by ring, zpow_add₀ (by norm_num),
        show 64 + (x - 64) - 64 = x - 64 by ring]
      refine mul_le_mul_of_nonneg_right ?_ hscale.le
      push_cast
      norm_num
    have hhigh : (N : ℚ) < 2 ^ (x + 1) := by
      rw [← hval, show (x : Int) + 1 = 65 + (x - 64) by ring, zpow_add₀ (by norm_num)]
      refine mul_lt_mul_of_pos_right ?_ hscale
      have hF' : ((F + 2 ^ 64 : ℕ) : ℚ) < (2 ^ 65 : ℕ) := by
        exact_mod_cast (by omega : F + 2 ^ 64 < 2 ^ 65)
      calc ((F + 2 ^ 64 : ℕ) : ℚ) < (2 ^ 65 : ℕ) := hF'
        _ = 2 ^ (65 : Int) := by norm_num
    have hpos : (1 : ℚ) ≤ N := by
      have hlt : (0 : ℚ) < N := lt_of_lt_of_le (zpow_pos (by norm_num) _) hlow
      exact_mod_cast Nat.pos_of_ne_zero (fun h => by simp [h] at hlt)
    have h0 : 0 ≤ x := by
      by_contra hneg
      have : (2 : ℚ) ^ (x + 1) ≤ 2 ^ (0 : Int) := zpow_le_zpow_right₀ (by norm_num) (by omega)
      rw [zpow_zero] at this
      linarith
    have h63 : x ≤ 63 := by
      by_contra hbig
      have hle : (2 : ℚ) ^ (64 : Int) ≤ 2 ^ x := zpow_le_zpow_right₀ (by norm_num) (by omega)
      have hlt : (N : ℚ) < 2 ^ (64 : Int) := by
        have : (N : ℚ) < ((2 ^ 64 : ℕ) : ℚ) := by exact_mod_cast hN
        calc (N : ℚ) < ((2 ^ 64 : ℕ) : ℚ) := this
          _ = 2 ^ (64 : Int) := by norm_num
      linarith
    exact hx ⟨h0, h63⟩

/-! ## Magnitudes -/

def exponentOf (m : Nat) (e : Int) : Int := biasedOf m e - EXPONENT_BIAS

theorem Mag.exponent (h : Mag m e) : exponentOf m e = topBit m 63 + e := by
  have hb := h.biased.2.2
  unfold exponentOf
  omega

theorem Mag.value (h : Mag m e) : ((fractionOf m + 2 ^ 64 : ℕ) : ℚ) * 2 ^ (exponentOf m e - 64) = m * 2 ^ e := by
  have hle := (topBit_spec h.pos 63 h.fits).1
  rw [(fractionOf_spec h.pos h.fits).2, h.exponent]
  push_cast
  rw [mul_assoc, ← zpow_natCast, ← zpow_add₀ (by norm_num), Nat.cast_sub (by omega)]
  congr 2
  push_cast
  ring

theorem valueOf_magnitude (h : Mag m e) (negative : Bool) :
    valueOf (putMagnitude negative m e) = some (numberOf negative (biasedOf m e) (fractionOf m)) := by
  obtain ⟨-, hb, -⟩ := h.biased
  have hF := (fractionOf_spec h.pos h.fits).1
  rw [putMagnitude_eq h]
  have htake : ∀ a b : Nat, (bePut 2 a ++ bePut 8 b).take 2 = bePut 2 a ∧
      ((bePut 2 a ++ bePut 8 b).drop 2).take 8 = bePut 8 b := fun _ _ => ⟨rfl, rfl⟩
  cases negative with
  | false =>
    simp only [Bool.false_eq_true, if_false]
    rw [show valueOf (byte KEY_POSITIVE :: (bePut 2 (biasedOf m e) ++ bePut 8 (fractionOf m))) =
      some (numberOf false (beNat ((bePut 2 (biasedOf m e) ++ bePut 8 (fractionOf m)).take 2))
        (beNat (((bePut 2 (biasedOf m e) ++ bePut 8 (fractionOf m)).drop 2).take 8))) from rfl,
      (htake _ _).1, (htake _ _).2, beNat_bePut 2 _ hb, beNat_bePut 8 _ hF]
  | true =>
    simp only [if_true]
    generalize hb' : 0xffff - biasedOf m e = B
    generalize hF' : 2 ^ 64 - 1 - fractionOf m = G
    rw [show valueOf (byte KEY_NEGATIVE :: (bePut 2 B ++ bePut 8 G)) =
      some (numberOf true (0xffff - beNat ((bePut 2 B ++ bePut 8 G).take 2))
        (2 ^ 64 - 1 - beNat (((bePut 2 B ++ bePut 8 G).drop 2).take 8))) from rfl,
      (htake _ _).1, (htake _ _).2, beNat_bePut 2 _ (by norm_num; omega), beNat_bePut 8 _ (by norm_num; omega)]
    congr 2 <;> omega

theorem numberOf_whole (h : Mag m e) (hN : (m : ℚ) * 2 ^ e = N) (hb : N ≤ if negative then 2 ^ 63 else 2 ^ 63 - 1) :
    numberOf negative (biasedOf m e) (fractionOf m) =
      byte SER_NUMBER :: byte 1 :: lePut 8 (if negative then (2 ^ 64 - N) % 2 ^ 64 else N) := by
  have hlt : N < 2 ^ 64 := by
    split at hb <;> omega
  have hwhole : wholeOf (exponentOf m e) (fractionOf m) = some N :=
    (wholeOf_iff (fractionOf_spec h.pos h.fits).1).2 ⟨hlt, h.value.trans hN⟩
  rw [exponentOf] at hwhole
  rw [numberOf]
  rw [hwhole]
  exact if_pos hb

theorem numberOf_double (h : Mag m e)
    (hno : ∀ N : Nat, N ≤ (if negative then 2 ^ 63 else 2 ^ 63 - 1) → (m : ℚ) * 2 ^ e ≠ N) :
    numberOf negative (biasedOf m e) (fractionOf m) =
      byte SER_NUMBER :: byte 0 :: lePut 8 (doubleOf negative (exponentOf m e) (fractionOf m)) := by
  rw [numberOf]
  split
  · rfl
  · rename_i N hwhole
    have hN := ((wholeOf_iff (fractionOf_spec h.pos h.fits).1).1 hwhole).2
    refine if_neg (fun hb => hno N hb ?_)
    rw [← h.value]
    exact hN

/-! ## Doubles -/

theorem mag_of_canonical {c : Nat} {u : Int} (h : Double.Canonical c u) : Mag c u :=
  ⟨h.pos, h.lt.trans (by norm_num), h.low, h.high.trans (by norm_num)⟩

theorem doubleParts_normal {c : Nat} (hlow : 2 ^ 52 ≤ c) (hhigh : c < 2 ^ 53) :
    doubleParts (1022 * 2 ^ 52 + c) = (false, c, -52) := by
  have hfield : (1022 * 2 ^ 52 + c) / 2 ^ 52 % 2 ^ 11 = 1023 := by omega
  have hfrac : (1022 * 2 ^ 52 + c) % 2 ^ 52 + 2 ^ 52 = c := by omega
  have hneg : decide ((1022 * 2 ^ 52 + c) / 2 ^ 63 = 1) = false := decide_eq_false (by omega)
  rw [doubleParts]
  rw [hfield, hneg, hfrac]
  rfl

/-- **A double comes out of its key as it was**, one without a leading bit too. -/
theorem doubleOf_canonical {c : Nat} {u : Int} (h : Double.Canonical c u) (negative : Bool) :
    doubleOf negative (exponentOf c u) (fractionOf c) =
      (if negative then 2 ^ 63 else 0) + ((u + 1074).toNat * 2 ^ 52 + c) := by
  have hm := mag_of_canonical h
  obtain ⟨-, hlow, hhigh⟩ := topBit_spec h.pos 63 hm.fits
  generalize ht : topBit c 63 = t at hlow hhigh
  have ht52 : t ≤ 52 := by
    by_contra hcon
    have : 2 ^ 53 ≤ 2 ^ t := Nat.pow_le_pow_right (by decide) (by omega)
    have := h.lt
    omega
  -- the significand with its leading bit at the top
  have hlead : 2 ^ 52 ≤ c * 2 ^ (52 - t) ∧ c * 2 ^ (52 - t) < 2 ^ 53 := by
    constructor
    · calc 2 ^ 52 = 2 ^ t * 2 ^ (52 - t) := by rw [← pow_add]; congr 1; omega
        _ ≤ c * 2 ^ (52 - t) := Nat.mul_le_mul_right _ hlow
    · calc c * 2 ^ (52 - t) < 2 ^ (t + 1) * 2 ^ (52 - t) := Nat.mul_lt_mul_of_pos_right hhigh (by positivity)
        _ = 2 ^ 53 := by rw [← pow_add]; congr 1; omega
  have hfrac : 2 ^ 53 + fractionOf c / 2 ^ 11 = c * 2 ^ (52 - t) * 2 ^ 1 := by
    have hF := (fractionOf_spec h.pos hm.fits).2
    rw [ht] at hF
    have hsplit : c * 2 ^ (64 - t) = c * 2 ^ (52 - t) * 2 ^ 1 * 2 ^ 11 := by
      rw [Nat.mul_assoc, Nat.mul_assoc, ← pow_add, ← pow_add]
      congr 2
      omega
    rw [hsplit] at hF
    omega
  have hfirst : Double.nearest (2 ^ 53 + fractionOf c / 2 ^ 11) (-53) = 1022 * 2 ^ 52 + c * 2 ^ (52 - t) := by
    have hcan : Double.Canonical (c * 2 ^ (52 - t)) (-52) :=
      ⟨by omega, hlead.2, by norm_num, by norm_num, Or.inl hlead.1⟩
    rw [hfrac]
    exact Double.nearest_exact hcan 1
  have hsecond : Double.nearest (c * 2 ^ (52 - t)) (-52 + exponentOf c u) = (u + 1074).toNat * 2 ^ 52 + c := by
    rw [hm.exponent, ht, show (-52 : Int) + (t + u) = u - ((52 - t : ℕ) : Int) by omega]
    exact Double.nearest_exact h (52 - t)
  rw [doubleOf, ldexp, hfirst, doubleParts_normal hlead.1 hlead.2]
  dsimp only
  rw [hsecond]
  cases negative with
  | false => simp
  | true => simp

/-! ## Numbers -/

/-- A number as the language has it. -/
def Num.said : Num → Eval.Number
  | .exact v => .exact v
  | .inexact bits => .inexact bits

inductive Doubled (bits : BitVec 64) : Shape → Double → Prop where
  | nan : Doubled bits .nan .nan
  | negInf (h : bits = 0xfff0000000000000) : Doubled bits .negInf (.inf true)
  | posInf (h : bits = 0x7ff0000000000000) : Doubled bits .posInf (.inf false)
  | zero : Doubled bits .zero (.finite 0)
  | mag (negative : Bool) (c : Nat) (u : Int) (h : Double.Canonical c u)
      (hbits : bits.toNat = (if negative then 2 ^ 63 else 0) + ((u + 1074).toNat * 2 ^ 52 + c)) :
      Doubled bits (.mag negative c u) (.finite (signed (negative, c, u)))

theorem ofBits_parts {bits : BitVec 64} (h : bits.toNat / 2 ^ 52 % 2 ^ 11 ≠ 0x7ff) :
    Double.ofBits bits = .finite (signed (doubleParts bits.toNat)) := by
  have hlt := bits.isLt
  have hneg : decide (2 ^ 63 ≤ bits.toNat) = decide (bits.toNat / 2 ^ 63 = 1) := decide_eq_decide.2 (by omega)
  rw [Double.ofBits, doubleParts, show (2 ^ 11 - 1 : Nat) = 0x7ff from rfl]
  dsimp only
  rw [if_neg h, hneg]
  generalize decide (bits.toNat / 2 ^ 63 = 1) = negative
  generalize bits.toNat / 2 ^ 52 % 2 ^ 11 = field
  generalize bits.toNat % 2 ^ 52 = frac
  have hsign : ∀ q : ℚ, (if negative then -q else q) = (if negative then -1 else 1) * q := by
    intro q
    cases negative <;> simp
  congr 1
  by_cases hf : field = 0
  · rw [if_pos hf, if_pos hf, signed, hsign, zpow_neg, div_eq_mul_inv]
    rfl
  · rw [if_neg hf, if_neg hf, signed, hsign, zpow_sub₀ (by norm_num)]
    rw [Nat.cast_add, Nat.cast_pow, Nat.cast_ofNat, zpow_natCast, add_comm (frac : ℚ), mul_div_assoc]
    rfl

theorem doubled (bits : BitVec 64) : Doubled bits (Num.inexact bits).shape (.ofBits bits) := by
  have hlt := bits.isLt
  have hfrac : bits.toNat % 2 ^ 52 < 2 ^ 52 := Nat.mod_lt _ (by positivity)
  have hfield : bits.toNat / 2 ^ 52 % 2 ^ 11 < 2 ^ 11 := Nat.mod_lt _ (by positivity)
  have hsplit : bits.toNat = bits.toNat / 2 ^ 63 * 2 ^ 63 + bits.toNat / 2 ^ 52 % 2 ^ 11 * 2 ^ 52 +
      bits.toNat % 2 ^ 52 := by
    omega
  have hneg : decide (2 ^ 63 ≤ bits.toNat) = decide (bits.toNat / 2 ^ 63 = 1) := decide_eq_decide.2 (by omega)
  by_cases hinf : bits.toNat / 2 ^ 52 % 2 ^ 11 = 0x7ff
  · have hval : Double.ofBits bits = if bits.toNat % 2 ^ 52 = 0 then .inf (decide (bits.toNat / 2 ^ 63 = 1))
        else .nan := by
      rw [Double.ofBits, show (2 ^ 11 - 1 : Nat) = 0x7ff from rfl]
      dsimp only
      rw [if_pos hinf, hneg]
    rw [hval, Num.shape, if_pos hinf]
    by_cases hz : bits.toNat % 2 ^ 52 = 0
    · rw [if_pos hz, if_neg (not_not.2 hz)]
      by_cases hs : bits.toNat / 2 ^ 63 = 1
      · rw [decide_eq_true hs, if_pos rfl]
        exact .negInf (BitVec.eq_of_toNat_eq (by rw [hsplit, hinf, hs, hz]; rfl))
      · rw [decide_eq_false hs, if_neg Bool.false_ne_true]
        exact .posInf (BitVec.eq_of_toNat_eq (by
          rw [hsplit, hinf, hz, show bits.toNat / 2 ^ 63 = 0 by omega]
          rfl))
    · rw [if_neg hz, if_pos hz]
      exact .nan
  · rw [ofBits_parts hinf, Num.shape, doubleParts, if_neg hinf]
    have hbits : ∀ x : Nat, bits.toNat = bits.toNat / 2 ^ 63 * 2 ^ 63 + x →
        bits.toNat = (if decide (bits.toNat / 2 ^ 63 = 1) then 2 ^ 63 else 0) + x := by
      intro x hx
      by_cases hs : bits.toNat / 2 ^ 63 = 1
      · rw [decide_eq_true hs, if_pos rfl]
        omega
      · rw [decide_eq_false hs, if_neg Bool.false_ne_true]
        omega
    by_cases hf : bits.toNat / 2 ^ 52 % 2 ^ 11 = 0
    · by_cases hz : bits.toNat % 2 ^ 52 = 0
      · rw [if_pos ⟨hf, hz⟩, if_pos hf, hz]
        have h0 : signed (decide (bits.toNat / 2 ^ 63 = 1), 0, -1074) = 0 := by simp [signed]
        rw [h0]
        exact .zero
      · rw [if_neg (fun h => hz h.2), if_pos hf, if_pos hf]
        have hcan : Double.Canonical (bits.toNat % 2 ^ 52) (-1074) :=
          ⟨by omega, by omega, by norm_num, by norm_num, Or.inr rfl⟩
        have hu : (-1074 + 1074 : Int).toNat = 0 := rfl
        refine .mag _ _ _ hcan (hbits _ ?_)
        rw [hu, Nat.zero_mul, Nat.zero_add]
        rw [hf, Nat.zero_mul, Nat.add_zero] at hsplit
        exact hsplit
    · rw [if_neg (fun h => hf h.1), if_neg hf, if_neg hf]
      have hcan : Double.Canonical (bits.toNat % 2 ^ 52 + 2 ^ 52) ((bits.toNat / 2 ^ 52 % 2 ^ 11 : ℕ) - 1075) :=
        ⟨by omega, by omega, by omega, by omega, Or.inl (by omega)⟩
      have hu : ((bits.toNat / 2 ^ 52 % 2 ^ 11 : ℕ) - 1075 + 1074 : Int).toNat = bits.toNat / 2 ^ 52 % 2 ^ 11 - 1 := by
        omega
      refine .mag _ _ _ hcan (hbits _ ?_)
      rw [hu]
      have hcarry : ∀ {b s f r : Nat}, b = s * 2 ^ 63 + f * 2 ^ 52 + r → ¬ f = 0 →
          b = s * 2 ^ 63 + ((f - 1) * 2 ^ 52 + (r + 2 ^ 52)) := by
        intro b s f r hb hf
        obtain ⟨f, rfl⟩ := Nat.exists_eq_succ_of_ne_zero hf
        rw [hb, Nat.succ_sub_one, Nat.succ_mul]
        ring
      exact hcarry hsplit hf

/-- What a number comes back as: exact where sixty-four bits hold it whole, and otherwise as it was. -/
structure Num.Back (n w : Num) : Prop where
  place : w.place = n.place
  whole : ∀ i : BitVec 64, Same.key n.said = .finite i.toInt → w = .exact i
  same : Same.key n.said ≠ .nan → (∀ i : BitVec 64, Same.key n.said ≠ .finite i.toInt) → w = n
  nan : Same.key n.said = .nan → w = .inexact 0x7ff8000000000000

theorem place_of_finite {n : Num} {q : ℚ} (h : Same.key n.said = .finite q) : n.place = toLex (1, q) := by
  cases n with
  | exact v =>
    cases h
    rfl
  | inexact bits =>
    have hd : Double.ofBits bits = .finite q := h
    have hfield : bits.toNat / 2 ^ 52 % 2 ^ 11 ≠ 0x7ff := by
      intro hf
      rw [Double.ofBits, show (2 ^ 11 - 1 : Nat) = 0x7ff from rfl] at hd
      dsimp only at hd
      rw [if_pos hf] at hd
      split at hd <;> cases hd
    rw [ofBits_parts hfield] at hd
    cases hd
    rw [Num.place, if_neg hfield]

theorem Num.Back.of_whole {n : Num} {i : BitVec 64} (h : Same.key n.said = .finite i.toInt) : n.Back (.exact i) where
  place := by rw [place_of_finite h]; rfl
  whole j hj := by
    rw [h] at hj
    injection hj with hj
    have hij : i = j := BitVec.eq_of_toInt_eq (by exact_mod_cast hj)
    rw [hij]
  same _ hno := absurd h (hno i)
  nan hnan := by
    rw [h] at hnan
    cases hnan

theorem Num.Back.self {n : Num} (hnan : Same.key n.said ≠ .nan)
    (hno : ∀ i : BitVec 64, Same.key n.said ≠ .finite i.toInt) :
    n.Back n where
  place := rfl
  whole i hi := absurd hi (hno i)
  same _ _ := rfl
  nan h := absurd h hnan

theorem signed_whole (hN : (m : ℚ) * 2 ^ e = N) (hb : N ≤ if negative then 2 ^ 63 else 2 ^ 63 - 1) :
    signed (negative, m, e) =
      ((BitVec.ofNat 64 (if negative then (2 ^ 64 - N) % 2 ^ 64 else N)).toInt : ℚ) := by
  rw [signed]
  dsimp only
  rw [hN]
  cases negative with
  | false =>
    simp only [Bool.false_eq_true, if_false, one_mul] at hb ⊢
    have hi : (BitVec.ofNat 64 N).toInt = N := by
      rw [BitVec.toInt_eq_toNat_cond, BitVec.toNat_ofNat]
      omega
    rw [hi]
    rfl
  | true =>
    simp only [if_true] at hb ⊢
    have hi : (BitVec.ofNat 64 ((2 ^ 64 - N) % 2 ^ 64)).toInt = -(N : Int) := by
      rw [BitVec.toInt_eq_toNat_cond, BitVec.toNat_ofNat]
      omega
    rw [hi]
    push_cast
    ring

theorem whole_of_signed {i : BitVec 64} (hpos : 0 < m) (h : signed (negative, m, e) = (i.toInt : ℚ)) :
    ∃ N : Nat, N ≤ (if negative then 2 ^ 63 else 2 ^ 63 - 1) ∧ (m : ℚ) * 2 ^ e = N := by
  obtain ⟨hlow, hhigh⟩ := Same.toInt_bounds i
  have hval : (0 : ℚ) < m * 2 ^ e := mul_pos (by exact_mod_cast hpos) (zpow_pos (by norm_num) e)
  rw [signed] at h
  dsimp only at h
  cases negative with
  | false =>
    simp only [Bool.false_eq_true, if_false, one_mul] at h ⊢
    rw [h] at hval ⊢
    have hi : 0 < i.toInt := by exact_mod_cast hval
    refine ⟨i.toInt.toNat, by omega, ?_⟩
    rw [← Int.cast_natCast, Int.toNat_of_nonneg hi.le]
  | true =>
    simp only [if_true, neg_one_mul] at h ⊢
    have hm : (m : ℚ) * 2 ^ e = ((-i.toInt : Int) : ℚ) := by
      push_cast
      rw [← h, neg_neg]
    rw [hm] at hval ⊢
    have hi : 0 < -i.toInt := by exact_mod_cast hval
    refine ⟨(-i.toInt).toNat, by omega, ?_⟩
    rw [← Int.cast_natCast, Int.toNat_of_nonneg hi.le]

/-- **A number comes back** exact where it is whole, and as the double it was where it is not. -/
theorem number_back (n : Num) : ∃ w, valueOf n.shape.code = some (serialize (.number w)) ∧ n.Back w := by
  have hwhole : ∀ {n : Num} {negative : Bool} {m N : Nat} {e : Int}, Mag m e → n.shape = .mag negative m e →
      Same.key n.said = .finite (signed (negative, m, e)) → (m : ℚ) * 2 ^ e = N →
      N ≤ (if negative then 2 ^ 63 else 2 ^ 63 - 1) →
      ∃ w, valueOf n.shape.code = some (serialize (.number w)) ∧ n.Back w := by
    intro n negative m N e hm hs hk hN hb
    refine ⟨.exact (BitVec.ofNat 64 (if negative then (2 ^ 64 - N) % 2 ^ 64 else N)), ?_, .of_whole ?_⟩
    · have hlt : (if negative then (2 ^ 64 - N) % 2 ^ 64 else N) < 2 ^ 64 := by
        cases negative with
        | false =>
          rw [if_neg Bool.false_ne_true] at hb ⊢
          omega
        | true =>
          rw [if_pos rfl]
          omega
      rw [hs, Shape.code, valueOf_magnitude hm, numberOf_whole hm hN hb, serialize, Num.bytes, BitVec.toNat_ofNat,
        Nat.mod_eq_of_lt hlt]
    · rw [hk, signed_whole hN hb]
  cases n with
  | exact v =>
    have hv := v.isLt
    by_cases h0 : v.toNat = 0
    · refine ⟨.exact v, ?_, .of_whole rfl⟩
      rw [Num.shape, if_pos h0, serialize, Num.bytes, h0]
      rfl
    · by_cases h63 : 2 ^ 63 ≤ v.toNat
      · have hs : (Num.exact v).shape = .mag true (2 ^ 64 - v.toNat) 0 := by rw [Num.shape, if_neg h0, if_pos h63]
        have hk : Same.key (Num.exact v).said = .finite (signed (true, 2 ^ 64 - v.toNat, 0)) := by
          have hi : v.toInt = -((2 ^ 64 - v.toNat : ℕ) : Int) := by
            rw [BitVec.toInt_eq_toNat_cond]
            omega
          rw [Num.said, Same.key, hi, signed]
          push_cast
          simp
        refine hwhole (N := 2 ^ 64 - v.toNat) ?_ hs hk (by simp) ?_
        · have := Num.shape_ok (.exact v)
          rw [hs] at this
          exact this
        · rw [if_pos rfl]
          omega
      · have hs : (Num.exact v).shape = .mag false v.toNat 0 := by rw [Num.shape, if_neg h0, if_neg h63]
        have hk : Same.key (Num.exact v).said = .finite (signed (false, v.toNat, 0)) := by
          have hi : v.toInt = (v.toNat : Int) := by
            rw [BitVec.toInt_eq_toNat_cond]
            omega
          rw [Num.said, Same.key, hi, signed]
          simp
        refine hwhole (N := v.toNat) ?_ hs hk (by simp) ?_
        · have := Num.shape_ok (.exact v)
          rw [hs] at this
          exact this
        · rw [if_neg Bool.false_ne_true]
          omega
  | inexact bits =>
    have hd := doubled bits
    have hkey : Same.key (Num.inexact bits).said = .ofBits bits := rfl
    generalize hs : (Num.inexact bits).shape = s at hd
    generalize hx : Double.ofBits bits = x at hd
    rw [hx] at hkey
    cases hd with
    | nan =>
      refine ⟨.inexact 0x7ff8000000000000, rfl, ⟨?_, ?_, ?_, fun _ => rfl⟩⟩
      · rw [Num.place_shape, Num.place_shape, hs]
        rfl
      · intro i hi
        rw [hkey] at hi
        cases hi
      · intro hn
        exact absurd hkey hn
    | negInf h | posInf h =>
      refine ⟨.inexact bits, by rw [h]; rfl, .self ?_ ?_⟩
      · rw [hkey]
        simp
      · intro i
        rw [hkey]
        simp
    | zero => exact ⟨.exact 0, rfl, .of_whole (by rw [hkey]; rfl)⟩
    | mag negative c u hc hbits =>
      have hm := mag_of_canonical hc
      by_cases hN : ∃ N : Nat, N ≤ (if negative then 2 ^ 63 else 2 ^ 63 - 1) ∧ (c : ℚ) * 2 ^ u = N
      · obtain ⟨N, hb, hN⟩ := hN
        rw [← hs]
        exact hwhole hm hs hkey hN hb
      · refine ⟨.inexact bits, ?_, .self ?_ ?_⟩
        · rw [Shape.code, valueOf_magnitude hm, numberOf_double hm (fun N hb he => hN ⟨N, hb, he⟩),
            doubleOf_canonical hc, ← hbits]
          rfl
        · rw [hkey]
          simp
        · intro i hi
          rw [hkey] at hi
          injection hi with hi
          exact hN (whole_of_signed hc.pos hi)

end Key
end Gbasic
