import Gbasic.Register
import Mathlib.Algebra.Field.ZMod
import Mathlib.Algebra.Polynomial.Div
import Mathlib.Algebra.Polynomial.OfFn
import Mathlib.Data.ZMod.Basic
import Mathlib.Tactic.LinearCombination
/-!
# Remainder — what a shift register holds (library)

A word's bits are the coefficients of a polynomial over the field of two elements (`poly`).  `mod2` is long division, a
coefficient at a time from the highest, and its answer is the remainder (`poly_mod2`).  A register that moves down holds
its remainder backwards: after a message it is that of what it held and of the message, each moved up by the length of
what came after (`poly_feed`).  So the two compute one remainder, whichever end they begin from (`reverse_mod2`).
Nothing here names a repository.
-/
namespace Gbasic
namespace Register

open Polynomial
open BitVec (getLsbD_of_ge ofBoolListLE getLsbD_reverse ofBoolListBE)

def coeffOf (b : Bool) : ZMod 2 := if b then 1 else 0

theorem coeffOf_xor (a b : Bool) : coeffOf (a ^^ b) = coeffOf a + coeffOf b := by
  cases a <;> cases b <;> decide

theorem coeffOf_injective : Function.Injective coeffOf := by
  decide

noncomputable def poly {n : Nat} (x : BitVec n) : (ZMod 2)[X] := ofFn n (fun i => coeffOf (x.getLsbD i))

section
variable {n : Nat}

@[simp] theorem coeff_poly (x : BitVec n) (i : Nat) : (poly x).coeff i = coeffOf (x.getLsbD i) := by
  rcases Nat.lt_or_ge i n with h | h
  · rw [poly, ofFn_coeff_eq_val_of_lt _ h]
  · rw [poly, ofFn_coeff_eq_zero_of_ge _ h, getLsbD_of_ge x i h]
    rfl

theorem degree_poly_lt (x : BitVec n) : (poly x).degree < n := ofFn_degree_lt _

theorem poly_injective : Function.Injective (poly : BitVec n → (ZMod 2)[X]) := by
  intro x y h
  apply BitVec.eq_of_getLsbD_eq
  intro i _
  apply coeffOf_injective
  rw [← coeff_poly, h, coeff_poly]

theorem poly_congr {m : Nat} {x : BitVec n} {y : BitVec m} (h : ∀ i, x.getLsbD i = y.getLsbD i) : poly x = poly y := by
  ext i
  rw [coeff_poly, coeff_poly, h]

theorem poly_xor (x y : BitVec n) : poly (x ^^^ y) = poly x + poly y := by
  ext i
  simp [coeffOf_xor]

theorem poly_zero : poly 0#n = 0 := by
  ext i
  simp [coeffOf]

theorem poly_concat (x : BitVec n) (b : Bool) : poly (x.concat b) = X * poly x + C (coeffOf b) := by
  ext i
  cases i with
  | zero => simp
  | succ i => simp

theorem poly_cons (b : Bool) (x : BitVec n) : poly (BitVec.cons b x) = C (coeffOf b) * X ^ n + poly x := by
  ext i
  rw [coeff_add, coeff_C_mul_X_pow, coeff_poly, coeff_poly, BitVec.getLsbD_cons]
  by_cases h : i = n
  · subst h
    simp [coeffOf]
  · simp [h]

theorem poly_shiftLeft {m : Nat} (x : BitVec n) (s : Nat) (h : n + s ≤ m) :
    poly (x.setWidth m <<< s) = poly x * X ^ s := by
  ext i
  rw [coeff_mul_X_pow', coeff_poly, BitVec.getLsbD_shiftLeft, BitVec.getLsbD_setWidth]
  by_cases hs : s ≤ i
  · rw [if_pos hs, coeff_poly]
    by_cases hn : i - s < n
    · simp [Nat.not_lt.2 hs, show i < m by omega, show i - s < m by omega]
    · rw [getLsbD_of_ge x _ (by omega)]
      simp
  · simp [hs, Nat.lt_of_not_le hs, coeffOf]

end

/-! ## Long division -/

section
variable {w : Nat}

def divStep (G : BitVec (w + 1)) (b : Bool) (r : BitVec w) : BitVec w :=
  let t := r.concat b
  (if t.msb then t ^^^ G else t).setWidth w

/-- The remainder of a division by `G`, a coefficient at a time from the highest. -/
def mod2 {n : Nat} (x : BitVec n) (G : BitVec (w + 1)) : BitVec w := (bits n x).foldr (divStep G) 0#w

theorem poly_divStep {G : BitVec (w + 1)} (hG : G.msb = true) (b : Bool) (r : BitVec w) :
    poly (divStep G b r) = X * poly r + C (coeffOf b) + C (coeffOf (r.concat b).msb) * poly G := by
  have htop : ∀ x : BitVec (w + 1), x.msb = false → poly (x.setWidth w) = poly x := by
    intro x hx
    apply poly_congr
    intro i
    rw [BitVec.getLsbD_setWidth]
    rcases Nat.lt_trichotomy i w with h | rfl | h
    · simp [h]
    · rw [BitVec.msb_eq_getLsbD_last] at hx
      simpa using hx
    · rw [getLsbD_of_ge x i h, Bool.and_false]
  rw [divStep, ← poly_concat]
  cases ht : (r.concat b).msb
  · rw [if_neg Bool.false_ne_true, htop _ ht]
    simp [coeffOf]
  · rw [if_pos rfl, htop _ (by rw [BitVec.msb_xor, ht, hG]; rfl), poly_xor]
    simp [coeffOf]

theorem poly_top {G : BitVec (w + 1)} (hG : G.msb = true) : poly G = X ^ w + poly (G.setWidth w) := by
  have hcons : BitVec.cons true (G.setWidth w) = G := by
    rw [← hG, BitVec.cons_msb_setWidth]
  calc poly G = poly (BitVec.cons true (G.setWidth w)) := by rw [hcons]
    _ = X ^ w + poly (G.setWidth w) := by
        rw [poly_cons]
        simp [coeffOf]

theorem monic_poly {G : BitVec (w + 1)} (hG : G.msb = true) : (poly G).Monic := by
  rw [poly_top hG]
  exact monic_X_pow_add (degree_poly_lt _)

theorem degree_poly {G : BitVec (w + 1)} (hG : G.msb = true) : (poly G).degree = w := by
  have hlow : (poly (G.setWidth w)).degree < (X ^ w : (ZMod 2)[X]).degree := by
    rw [degree_X_pow]
    exact degree_poly_lt _
  rw [poly_top hG, degree_add_eq_left_of_degree_lt hlow, degree_X_pow]

theorem poly_eq_modByMonic {G : BitVec (w + 1)} (hG : G.msb = true) {r : BitVec w} {f : (ZMod 2)[X]}
    (h : ∃ q, poly r + poly G * q = f) : poly r = f %ₘ poly G := by
  obtain ⟨q, h⟩ := h
  exact (div_modByMonic_unique q (poly r) (monic_poly hG) ⟨h, degree_poly hG ▸ degree_poly_lt r⟩).2.symm

theorem two_eq_zero : (2 : (ZMod 2)[X]) = 0 := by
  rw [← C_ofNat, show (2 : ZMod 2) = 0 from rfl, C_0]

/-- **Long division answers the remainder.** -/
theorem poly_mod2 {G : BitVec (w + 1)} (hG : G.msb = true) {n : Nat} (x : BitVec n) :
    poly (mod2 x G) = poly x %ₘ poly G := by
  have hrun : ∀ l : List Bool, ∃ q,
      poly (l.foldr (divStep G) 0#w) + poly G * q = poly (ofBoolListLE l) := by
    intro l
    induction l with
    | nil => exact ⟨0, by rw [List.foldr_nil, poly_zero, mul_zero, zero_add]; exact poly_zero.symm⟩
    | cons b l ih =>
      obtain ⟨q, hq⟩ := ih
      refine ⟨X * q + C (coeffOf ((l.foldr (divStep G) 0#w).concat b).msb), ?_⟩
      rw [List.foldr_cons, poly_divStep hG, ofBoolListLE, poly_concat, ← hq]
      linear_combination C (coeffOf ((l.foldr (divStep G) 0#w).concat b).msb) * poly G * two_eq_zero
  have hbits : poly (ofBoolListLE (bits n x)) = poly x := by
    apply poly_congr
    intro i
    rw [BitVec.getLsbD_ofBoolListLE, bits]
    rcases Nat.lt_or_ge i n with hi | hi
    · simp [hi]
    · simp [hi]
  exact poly_eq_modByMonic hG (hbits ▸ hrun (bits n x))

end

/-! ## A register, backwards -/

section
variable {w : Nat} (P : BitVec w)

def divisor : BitVec (w + 1) := BitVec.cons true P.reverse

theorem msb_divisor : (divisor P).msb = true := by
  simp [divisor]

theorem poly_divisor : poly (divisor P) = X ^ w + poly P.reverse := by
  rw [divisor, poly_cons]
  simp [coeffOf]

theorem poly_reverse_xor (a b : BitVec w) : poly (a ^^^ b).reverse = poly a.reverse + poly b.reverse := by
  ext i
  simp [getLsbD_reverse, coeffOf_xor]

theorem X_mul_poly_reverse (c : BitVec w) :
    X * poly c.reverse = poly (c >>> 1).reverse + C (coeffOf (c.getLsbD 0)) * X ^ w := by
  ext i
  rw [coeff_add, coeff_C_mul_X_pow, coeff_poly, getLsbD_reverse, BitVec.getMsbD_eq_getLsbD,
    BitVec.getLsbD_ushiftRight]
  cases i with
  | zero =>
    rcases Nat.eq_zero_or_pos w with rfl | hw
    · simp [coeffOf]
    · simp [coeffOf, hw.ne, getLsbD_of_ge c (1 + (w - 1)) (by omega)]
  | succ i =>
    rw [coeff_X_mul, coeff_poly, getLsbD_reverse, BitVec.getMsbD_eq_getLsbD]
    rcases Nat.lt_trichotomy (i + 1) w with hi | rfl | hi
    · simp [hi, hi.ne, show i < w by omega, show 1 + (w - 1 - (i + 1)) = w - 1 - i by omega, coeffOf]
    · simp [coeffOf]
    · simp [hi.ne', show ¬ i < w by omega, show ¬ i + 1 < w by omega, coeffOf]

theorem poly_take (c : BitVec w) (b : Bool) :
    poly (take P c b).reverse = X * poly c.reverse + C (coeffOf b) * X ^ w +
      poly (divisor P) * C (coeffOf (c.getLsbD 0 ^^ b)) := by
  have hturned : ∀ t : Bool, poly (if t then P else 0#w).reverse = C (coeffOf t) * poly P.reverse := by
    intro t
    cases t
    · ext i
      simp [coeffOf, getLsbD_reverse]
    · simp [coeffOf]
  rw [take, poly_reverse_xor, hturned, X_mul_poly_reverse, poly_divisor, coeffOf_xor, C_add]
  linear_combination -(C (coeffOf (c.getLsbD 0)) + C (coeffOf b)) * X ^ w * two_eq_zero

/-- **What a register holds, backwards, is the remainder** of what it held and of the message, the message's first bit
the highest and each moved up by what came after. -/
theorem poly_feed (c : BitVec w) (l : List Bool) : poly (feed P c l).reverse =
    (poly c.reverse * X ^ l.length + poly (ofBoolListBE l) * X ^ w) %ₘ poly (divisor P) := by
  apply poly_eq_modByMonic (msb_divisor P)
  induction l generalizing c with
  | nil =>
    refine ⟨0, ?_⟩
    have hnil : poly (ofBoolListBE []) = 0 := poly_zero
    rw [hnil, mul_zero, add_zero, zero_mul, add_zero, List.length_nil, pow_zero, mul_one]
    rfl
  | cons b l ih =>
    obtain ⟨q, hq⟩ := ih (take P c b)
    refine ⟨q - C (coeffOf (c.getLsbD 0 ^^ b)) * X ^ l.length, ?_⟩
    rw [poly_take] at hq
    rw [ofBoolListBE, poly_cons, List.length_cons]
    change poly (feed P (take P c b) l).reverse + _ = _
    linear_combination hq

/-- **Divided from the highest coefficient or fed from the first bit**, the remainder is one. -/
theorem reverse_mod2 (c : BitVec w) {k : Nat} (x : BitVec k) :
    (mod2 (x.reverse.setWidth (k + w) <<< w ^^^ c.reverse.setWidth (k + w) <<< k) (divisor P)).reverse =
      feed P c (bits k x) := by
  have hx : poly (ofBoolListBE (bits k x)) = poly x.reverse := by
    apply poly_congr
    intro i
    rw [BitVec.getLsbD_ofBoolListBE, getLsbD_reverse, BitVec.getMsbD_eq_getLsbD, length_bits, bits]
    rcases Nat.lt_or_ge i k with hi | hi
    · simp [hi, show k - 1 - i < k by omega]
    · simp [Nat.not_lt.2 hi]
  rw [← BitVec.reverse_reverse_eq (x := feed P c (bits k x))]
  congr 1
  apply poly_injective
  rw [poly_mod2 (msb_divisor P), poly_xor, poly_shiftLeft _ _ le_rfl,
    poly_shiftLeft _ _ (Nat.le_of_eq (Nat.add_comm w k)), poly_feed, hx, length_bits, add_comm]

end
end Register
end Gbasic
