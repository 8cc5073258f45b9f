import Mathlib.Data.Nat.Log
import Mathlib.Data.Rat.Floor
import Mathlib.Tactic.Linarith
import Mathlib.Tactic.Positivity
import Mathlib.Tactic.Ring
/-!
# Double — a binary64 number from its bits (library)

What the bits of an IEEE 754 double stand for, its comparisons, and a 64-bit integer against one.  The two zeros are one
number, and so are the NaNs.  The double nearest to `m * 2 ^ e` goes to even at a half and is infinite where that is too
large; a double's own magnitude, written in a smaller unit, comes out as its bits.  Nothing here names a repository.
-/
namespace Gbasic

inductive Double where
  | nan
  | inf (neg : Bool)
  | finite (q : ℚ)
  deriving DecidableEq

namespace Double

def ofBits (b : BitVec 64) : Double :=
  let neg := decide (2 ^ 63 ≤ b.toNat)
  let e : Nat := b.toNat / 2 ^ 52 % 2 ^ 11
  let f : Nat := b.toNat % 2 ^ 52
  if e = 2 ^ 11 - 1 then if f = 0 then .inf neg else .nan
  else
    let q : ℚ := if e = 0 then f / 2 ^ 1074 else (2 ^ 52 + f) * 2 ^ e / 2 ^ 1075
    .finite (if neg then -q else q)

def isNan (x : Double) : Bool := decide (x = .nan)

/-- `a < b`, which no NaN is part of. -/
def lt : Double → Double → Bool
  | .nan, _ => false
  | _, .nan => false
  | .inf a, .inf b => a && !b
  | .inf a, .finite _ => a
  | .finite _, .inf b => !b
  | .finite p, .finite q => decide (p < q)

def eq (a b : Double) : Bool := !a.isNan && decide (a = b)

theorem eq_of_not_lt {a b : Double} (ha : a.isNan = false) (hb : b.isNan = false) (h : a.lt b = false)
    (h' : b.lt a = false) : a = b := by
  cases a with
  | nan => cases ha
  | inf s =>
    cases b with
    | nan => cases hb
    | inf t => cases s <;> cases t <;> simp_all [lt]
    | finite q => cases s <;> simp_all [lt]
  | finite p =>
    cases b with
    | nan => cases hb
    | inf t => cases t <;> simp_all [lt]
    | finite q =>
      simp only [lt, decide_eq_false_iff_not, not_lt] at h h'
      rw [le_antisymm h' h]

theorem lt_irrefl (a : Double) : a.lt a = false := by
  cases a with
  | nan => rfl
  | inf s => cases s <;> rfl
  | finite q => simp [lt]

def trunc (b : ℚ) : ℤ := if b < 0 then -⌊-b⌋ else ⌊b⌋

theorem trunc_intCast (a : ℤ) : trunc a = a := by
  rw [trunc]
  split_ifs
  · rw [← Int.cast_neg, Int.floor_intCast, neg_neg]
  · exact Int.floor_intCast a

/-- An integer against a double, by the double's whole part and then its fraction; nothing against a NaN. -/
def compareInt (a : ℤ) : Double → Option Ordering
  | .nan => none
  | .inf neg => some (if neg then .gt else .lt)
  | .finite b =>
    if 2 ^ 63 ≤ b then some .lt
    else if b < -2 ^ 63 then some .gt
    else if a < trunc b then some .lt
    else if trunc b < a then some .gt
    else if trunc b < b then some .lt
    else if b < trunc b then some .gt
    else some .eq

/-- **A 64-bit integer is found the same as a double just where the double is that integer.** -/
theorem compareInt_eq {a : ℤ} {b : Double} (ha : -2 ^ 63 ≤ a ∧ a < 2 ^ 63) :
    compareInt a b = some .eq ↔ b = .finite a := by
  cases b with
  | nan => simp [compareInt]
  | inf neg => cases neg <;> simp [compareInt]
  | finite b =>
    have hlo : (-2 ^ 63 : ℚ) ≤ a := by exact_mod_cast ha.1
    have hhi : (a : ℚ) < 2 ^ 63 := by exact_mod_cast ha.2
    constructor
    · intro h
      rw [compareInt] at h
      by_cases h₁ : (2 ^ 63 : ℚ) ≤ b
      · rw [if_pos h₁] at h
        cases h
      by_cases h₂ : b < (-2 ^ 63 : ℚ)
      · rw [if_neg h₁, if_pos h₂] at h
        cases h
      rw [if_neg h₁, if_neg h₂] at h
      split_ifs at h with h₃ h₄ h₅ h₆
      · cases h
      · cases h
      · cases h
      · cases h
      · have ht : a = trunc b := by omega
        have hb : b = (trunc b : ℚ) := le_antisymm (not_lt.1 h₅) (not_lt.1 h₆)
        rw [ht, ← hb]
    · intro h
      injection h with h
      subst h
      rw [compareInt, if_neg (not_le.2 hhi), if_neg (not_lt.2 hlo)]
      simp [trunc_intCast]

/-! ## The nearest double -/

/-- A number of units of which `2 ^ s` are one of the next, to the nearest, halves to even. -/
def halfEven (m s : Nat) : Nat :=
  let q := m / 2 ^ s
  let r := m % 2 ^ s
  if 2 ^ s < 2 * r ∨ (2 ^ s = 2 * r ∧ q % 2 = 1) then q + 1 else q

/-- The bits of the double nearest to `m * 2 ^ e`.  A significand that is rounded up to the next power of two carries
into the exponent. -/
def nearest (m : Nat) (e : Int) : Nat :=
  if m = 0 then 0
  else
    let u : Int := max (Nat.log2 m + e - 52) (-1074)
    let c := if u ≤ e then m * 2 ^ (e - u).toNat else halfEven m (u - e).toNat
    min ((u + 1074).toNat * 2 ^ 52 + c) (2047 * 2 ^ 52)

theorem halfEven_mul (c k : Nat) : halfEven (c * 2 ^ k) k = c := by
  have hpos : 0 < 2 ^ k := by positivity
  rw [halfEven, Nat.mul_mod_left, Nat.mul_div_cancel _ hpos]
  exact if_neg (by omega)

structure Canonical (c : Nat) (u : Int) : Prop where
  pos : 0 < c
  lt : c < 2 ^ 53
  low : -1074 ≤ u
  high : u ≤ 971
  leads : 2 ^ 52 ≤ c ∨ u = -1074

/-- **A double's own magnitude is the nearest to itself**, in whatever smaller unit it is written. -/
theorem nearest_exact {c : Nat} {u : Int} (h : Canonical c u) (k : Nat) :
    nearest (c * 2 ^ k) (u - k) = (u + 1074).toNat * 2 ^ 52 + c := by
  have hpos : 0 < c * 2 ^ k := Nat.mul_pos h.pos (by positivity)
  have hlog : Nat.log2 (c * 2 ^ k) = Nat.log2 c + k := by
    obtain ⟨hlow, hhigh⟩ := (Nat.log2_eq_iff (Nat.pos_iff_ne_zero.1 h.pos)).1 (rfl : Nat.log2 c = Nat.log2 c)
    refine (Nat.log2_eq_iff (Nat.pos_iff_ne_zero.1 hpos)).2 ⟨?_, ?_⟩
    · rw [pow_add]
      exact Nat.mul_le_mul_right _ hlow
    · rw [show Nat.log2 c + k + 1 = Nat.log2 c + 1 + k by omega, pow_add]
      exact Nat.mul_lt_mul_of_pos_right hhigh (by positivity)
  have hle : Nat.log2 c ≤ 52 := by
    have := (Nat.log2_lt (Nat.pos_iff_ne_zero.1 h.pos)).2 h.lt
    omega
  have hunit : max ((Nat.log2 (c * 2 ^ k) : Int) + (u - k) - 52) (-1074) = u := by
    rw [hlog]
    have hlow := h.low
    rcases h.leads with hc | hu
    · have hge : 52 ≤ Nat.log2 c := (Nat.le_log2 (Nat.pos_iff_ne_zero.1 h.pos)).2 hc
      push_cast
      omega
    · push_cast
      omega
  have hsig : (if u ≤ u - k then c * 2 ^ k * 2 ^ (u - k - u).toNat else halfEven (c * 2 ^ k) (u - (u - k)).toNat) =
      c := by
    by_cases hk : k = 0
    · subst hk
      rw [if_pos (by omega)]
      norm_num
    · rw [if_neg (by omega), show (u - (u - k)).toNat = k by omega, halfEven_mul]
  have hfits : (u + 1074).toNat * 2 ^ 52 + c ≤ 2047 * 2 ^ 52 := by
    have hlt := h.lt
    have hhigh := h.high
    omega
  rw [nearest, if_neg (Nat.pos_iff_ne_zero.1 hpos)]
  dsimp only
  rw [hunit, hsig, min_eq_left hfits]

end Double
end Gbasic
