import Gbasic.Double
import Gbasic.MoneyScan
import Gbasic.ValueEqual
/-!
# MoneyScale — money by a number

A factor is taken apart, through the decimal that is written for it, into a whole number and a power of ten; what is
below the eighteenth place is trimmed a digit at a time, and the units are multiplied and divided by what is left in one
wide step.  The writing of a double is a parameter.
-/
namespace Gbasic
namespace Money

open Eval (CString Number Raise)

/-- The decimal written for a double, `format_number`'s. -/
abbrev FormatNumber := BitVec 64 → CString

def LLONG_MIN : Int := -9223372036854775808

instance (z : Int) : Decidable (InLong z) := inferInstanceAs (Decidable (_ ∧ _))

def mulOverflow (a b : Int) : Option Int := if InLong (a * b) then some (a * b) else none

def moneyPow10 (e : Int) : Int := if e < 0 ∨ 18 < e then 0 else 10 ^ e.toNat

/-- `money_muldiv`, with a 128-bit product, which holds any two `long long`s'. -/
def moneyMuldiv (units mul den : Int) : Except String Int :=
  if den ≤ 0 then .error MONEY_ERR_RANGE
  else if units = 0 ∨ mul = 0 then .ok 0
  else
    let negative := decide (units * mul < 0)
    let mag := (units * mul).natAbs
    let q := mag / den.toNat
    let r := mag % den.toNat
    let q := if den.toNat < r * 2 ∨ r * 2 = den.toNat ∧ q % 2 ≠ 0 then q + 1 else q
    if limitOf negative < q then .error MONEY_ERR_RANGE else .ok (signed negative q)

/-! ## `money_scalar_parts` -/

structure Mantissa where
  mag : Nat
  frac : Int
  after : Bool
  seen : Bool

def mantissa (st : Mantissa) : List Byte → Except String (Mantissa × List Byte)
  | [] => .ok (st, [])
  | b :: l =>
    if b = byte '.'.toNat then mantissa { st with after := true } l
    else if isDigit b = false then .ok (st, b :: l)
    else if (9223372036854775807 - 9) / 10 < st.mag then .error "money scale factor is out of range"
    else
      mantissa { st with
        mag := st.mag * 10 + (b.val - 48)
        frac := if st.after then st.frac + 1 else st.frac
        seen := true } l

def exponentDigits (e : Nat) : List Byte → Nat
  | [] => e
  | b :: l => if isDigit b then exponentDigits (if e < 10000 then e * 10 + (b.val - 48) else e) l else e

def scalarExponent : List Byte → Int
  | [] => 0
  | b :: l =>
    if b = byte 'e'.toNat ∨ b = byte 'E'.toNat then
      let (minus, l) := readSign l
      if minus then -exponentDigits 0 l else exponentDigits 0 l
    else 0

def moneyScalarParts (s : CString) : Except String (Int × Int) :=
  let (negative, l) := readSign s.bytes
  match mantissa ⟨0, 0, false, false⟩ l with
  | .error m => .error m
  | .ok (st, l) =>
    if st.seen = false then .error "money scale factor is not a number"
    else .ok (signed negative st.mag, st.frac - scalarExponent l)

/-! ## `money_scale_by` -/

def trimDigit (num : Int) : Int :=
  if 5 ≤ num.tmod 10 then num.tdiv 10 + 1 else if num.tmod 10 ≤ -5 then num.tdiv 10 - 1 else num.tdiv 10

def trimLow (num dexp : Int) : Int × Int :=
  if 18 < dexp ∧ num ≠ 0 then trimLow (trimDigit num) (dexp - 1) else (num, dexp)
termination_by dexp.toNat

def raiseHigh (num dexp : Int) : Option (Int × Int) :=
  if dexp < -18 ∧ num ≠ 0 then
    match mulOverflow num 10 with
    | none => none
    | some num => raiseHigh num (dexp + 1)
  else some (num, dexp)
termination_by (-dexp).toNat

def scaleSigned (units mul den : Int) : Except String Int :=
  match moneyMuldiv units mul (if den < 0 then -den else den) with
  | .error m => .error m
  | .ok result =>
    if den < 0 then if result = LLONG_MIN then .error MONEY_ERR_RANGE else .ok (-result) else .ok result

def scaleMul (units num dexp : Int) : Except String Int :=
  if num = 0 then .ok 0
  else if 0 ≤ dexp then
    if moneyPow10 dexp = 0 then .ok 0 else scaleSigned units num (moneyPow10 dexp)
  else if moneyPow10 (-dexp) = 0 then .error MONEY_ERR_RANGE
  else
    match mulOverflow num (moneyPow10 (-dexp)) with
    | none => .error MONEY_ERR_RANGE
    | some mul => scaleSigned units mul 1

def scaleDiv (units num dexp : Int) : Except String Int :=
  if num = 0 then .error "division by zero"
  else if 0 ≤ dexp then
    if moneyPow10 dexp = 0 then .error MONEY_ERR_RANGE else scaleSigned units (moneyPow10 dexp) num
  else if moneyPow10 (-dexp) = 0 then .ok 0
  else
    match mulOverflow num (moneyPow10 (-dexp)) with
    | none => .error MONEY_ERR_RANGE
    | some den => scaleSigned units 1 den

def scaleParts (units num dexp : Int) (divide : Bool) : Except String Int :=
  match raiseHigh (trimLow num dexp).1 (trimLow num dexp).2 with
  | none => .error MONEY_ERR_RANGE
  | some (num, dexp) => if divide then scaleDiv units num dexp else scaleMul units num dexp

def moneyScaleBy (formatNumber : FormatNumber) (units : Int) (scalar : BitVec 64) (divide : Bool) : Except String Int :=
  match moneyScalarParts (formatNumber scalar) with
  | .error m => .error m
  | .ok (num, dexp) => scaleParts units num dexp divide

/-! ## `eval_binary` of money and a number -/

def numberValue : Number → BitVec 64
  | .exact n => .ofNat 64 ((if n.toInt < 0 then 2 ^ 63 else 0) + Double.nearest n.toInt.natAbs 0)
  | .inexact bits => bits

def raiseMoney : Except String Int → Except Raise Int
  | .error m => .error ⟨text m, 1003, "money"⟩
  | .ok scaled => .ok scaled

def moneyScaled (formatNumber : FormatNumber) (units : Int) (n : Number) (divide : Bool) : Except Raise Int :=
  if divide ∧ Double.ofBits (numberValue n) = .finite 0 then .error ⟨text "division by zero", 1002, "division"⟩
  else raiseMoney (moneyScaleBy formatNumber units (numberValue n) divide)

end Money
end Gbasic
