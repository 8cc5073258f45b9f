import Gbasic.MoneyScaled
import Gbasic.SortOrder
/-!
# MoneyOps — the operators on money

Money of one currency is added and subtracted in a `long long`, and what leaves it is refused; money of two currencies
is neither added nor ordered.  A literal whole number is a factor without a power of ten.
-/
namespace Gbasic
namespace Money

open Eval (Bytes Raise MoneyValue Currencies currencyAlphaOf)

def unit (m : MoneyValue) : BitVec 16 × BitVec 8 := (m.currency, m.exponent)

def amount (m : MoneyValue) : Int := m.units.toInt

/-- So many units of a currency. -/
def of (c : BitVec 16 × BitVec 8) (x : Int) : MoneyValue := ⟨BitVec.ofInt 64 x, c.1, c.2⟩

def outOfRange : Raise := ⟨text "money value is out of range", 1003, "money"⟩

def differ (cs : Currencies) (verb : String) (l r : MoneyValue) : Raise :=
  ⟨(text "cannot " ++ text verb ++ text " money in different currencies (" ++
    (currencyAlphaOf cs l.currency).getD (text "?") ++ text " and " ++
    (currencyAlphaOf cs r.currency).getD (text "?") ++ text ")").take 159, 1003, "money"⟩

def ranged (c : BitVec 16 × BitVec 8) (x : Int) : Except Raise MoneyValue :=
  if InLong x then .ok (of c x) else .error outOfRange

def add (cs : Currencies) (l r : MoneyValue) : Except Raise MoneyValue :=
  if unit l ≠ unit r then .error (differ cs "add" l r) else ranged (unit l) (amount l + amount r)

def sub (cs : Currencies) (l r : MoneyValue) : Except Raise MoneyValue :=
  if unit l ≠ unit r then .error (differ cs "subtract" l r) else ranged (unit l) (amount l - amount r)

def times (m : MoneyValue) (k : Int) : Except Raise MoneyValue :=
  match scaleParts m.units.toInt k 0 false with
  | .error e => .error ⟨text e, 1003, "money"⟩
  | .ok x => .ok (of (unit m) x)

/-- `=`. -/
def same (l r : MoneyValue) : Bool := decide (unit l = unit r ∧ amount l = amount r)

def less (cs : Currencies) (l r : MoneyValue) : Except Raise Bool :=
  if unit l ≠ unit r then .error (differ cs "order" l r) else .ok (decide (amount l < amount r))

def greater (cs : Currencies) (l r : MoneyValue) : Except Raise Bool :=
  if unit l ≠ unit r then .error (differ cs "order" l r) else .ok (decide (amount r < amount l))

section
variable {c : BitVec 16 × BitVec 8} {cs : Currencies} {l r m : MoneyValue}

theorem amount_inLong (m : MoneyValue) : InLong (amount m) := by
  have h1 := BitVec.le_toInt m.units
  have h2 := BitVec.toInt_lt (x := m.units)
  unfold InLong amount
  omega

@[simp] theorem unit_of (x : Int) : unit (of c x) = c := rfl

theorem amount_of {x : Int} (h : InLong x) : amount (of c x) = x := by
  unfold InLong at h
  unfold amount of
  rw [BitVec.toInt_ofInt, Int.bmod_eq_of_le] <;> omega

theorem of_amount (m : MoneyValue) : of (unit m) (amount m) = m := by
  unfold of unit amount
  rw [BitVec.ofInt_toInt]

theorem eq_of (hu : unit l = unit r) (ha : amount l = amount r) : l = r := by
  rw [← of_amount l, ← of_amount r, hu, ha]

theorem ranged_ok {x : Int} : ranged c x = .ok m ↔ InLong x ∧ unit m = c ∧ amount m = x := by
  unfold ranged
  split_ifs with h
  · rw [Except.ok.injEq]
    constructor
    · rintro rfl
      exact ⟨h, rfl, amount_of h⟩
    · rintro ⟨-, rfl, rfl⟩
      exact of_amount m
  · constructor
    · intro he
      cases he
    · intro hx
      exact absurd hx.1 h

theorem add_ok : add cs l r = .ok m ↔
    unit r = unit l ∧ InLong (amount l + amount r) ∧ unit m = unit l ∧ amount m = amount l + amount r := by
  unfold add
  split_ifs with h
  · constructor
    · intro he
      cases he
    · intro hm
      exact absurd hm.1.symm h
  · rw [ranged_ok]
    exact (and_iff_right (not_not.1 h).symm).symm

theorem sub_ok : sub cs l r = .ok m ↔
    unit r = unit l ∧ InLong (amount l - amount r) ∧ unit m = unit l ∧ amount m = amount l - amount r := by
  unfold sub
  split_ifs with h
  · constructor
    · intro he
      cases he
    · intro hm
      exact absurd hm.1.symm h
  · rw [ranged_ok]
    exact (and_iff_right (not_not.1 h).symm).symm

theorem add_of (hl : unit l = c) (hr : unit r = c) (h : InLong (amount l + amount r)) :
    add cs l r = .ok (of c (amount l + amount r)) :=
  add_ok.2 ⟨hr.trans hl.symm, h, hl.symm, amount_of h⟩

theorem sub_of (hl : unit l = c) (hr : unit r = c) (h : InLong (amount l - amount r)) :
    sub cs l r = .ok (of c (amount l - amount r)) :=
  sub_ok.2 ⟨hr.trans hl.symm, h, hl.symm, amount_of h⟩

theorem times_zero (m : MoneyValue) : times m 0 = .ok (of (unit m) 0) := by
  have hscale : scaleParts m.units.toInt 0 0 false = .ok 0 := by
    unfold scaleParts
    have htrim : trimLow 0 0 = (0, 0) := by unfold trimLow; simp
    have hraise : raiseHigh 0 0 = some (0, 0) := by unfold raiseHigh; simp
    rw [htrim, hraise]
    rfl
  unfold times
  rw [hscale]

/-- The other sign, which the least amount has none of. -/
theorem times_neg : times l (-1) = .ok m ↔ InLong (-amount l) ∧ unit m = unit l ∧ amount m = -amount l := by
  have hscale : scaleParts l.units.toInt (-1) 0 false = moneyMuldiv l.units.toInt (-1) 1 := by
    unfold scaleParts
    have htrim : trimLow (-1) 0 = (-1, 0) := by unfold trimLow; simp
    have hraise : raiseHigh (-1) 0 = some (-1, 0) := by unfold raiseHigh; simp
    rw [htrim, hraise]
    change scaleSigned _ _ 1 = _
    unfold scaleSigned
    rw [if_neg (by decide)]
    rcases moneyMuldiv l.units.toInt (-1) 1 with e | x <;> rfl
  have hround : ∀ x, moneyMuldiv l.units.toInt (-1) 1 = .ok x ↔ InLong x ∧ x = -amount l := by
    intro x
    rw [muldiv_iff one_pos]
    have hquot : ((l.units.toInt * -1 : Int) : ℚ) / ((1 : Int) : ℚ) = ((-amount l : Int) : ℚ) := by
      unfold amount
      push_cast
      ring
    rw [hquot]
    refine and_congr_right (fun _ => ⟨fun hx => hx.unique (Rounds.intCast _), ?_⟩)
    rintro rfl
    exact Rounds.intCast _
  unfold times
  rw [hscale]
  rcases hm : moneyMuldiv l.units.toInt (-1) 1 with e | x
  · constructor
    · intro he
      cases he
    · rintro ⟨hin, -⟩
      rw [(hround _).2 ⟨hin, rfl⟩] at hm
      cases hm
  · obtain ⟨hin, rfl⟩ := (hround x).1 hm
    dsimp only
    rw [Except.ok.injEq]
    constructor
    · rintro rfl
      exact ⟨hin, rfl, amount_of hin⟩
    · rintro ⟨-, hu, ha⟩
      exact eq_of hu.symm ((amount_of hin).trans ha.symm)

theorem times_neg_of (hl : unit l = c) (h : InLong (-amount l)) : times l (-1) = .ok (of c (-amount l)) :=
  times_neg.2 ⟨h, hl.symm, amount_of h⟩

theorem same_iff : same l r = true ↔ unit l = unit r ∧ amount l = amount r := decide_eq_true_iff

theorem compared_ok {e : Raise} {p : Prop} [Decidable p] {a b : Bool} :
    (if ¬p then .error e else .ok a : Except Raise Bool) = .ok b ↔ p ∧ b = a := by
  split_ifs with h
  · rw [Except.ok.injEq, eq_comm]
    exact (and_iff_right h).symm
  · constructor
    · intro he
      cases he
    · intro hb
      exact absurd hb.1 h

theorem less_ok {b : Bool} : less cs l r = .ok b ↔ unit l = unit r ∧ b = decide (amount l < amount r) := compared_ok

theorem greater_ok {b : Bool} : greater cs l r = .ok b ↔ unit l = unit r ∧ b = decide (amount r < amount l) :=
  compared_ok

theorem less_same (h : unit l = unit r) : less cs l r = .ok (decide (amount l < amount r)) := if_neg (not_not.2 h)

theorem greater_same (h : unit l = unit r) : greater cs l r = .ok (decide (amount r < amount l)) :=
  if_neg (not_not.2 h)

end

end Money
end Gbasic
