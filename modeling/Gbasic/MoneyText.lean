import Gbasic.DateTime
import Gbasic.HalfEven
import Gbasic.Serialize
/-!
# MoneyText — money read from decimal text, and written as it

The text is scanned into at most forty digits, the places after its point and an exponent, which together say how many
of the digits are above the scale; what is below them is rounded, or refused.  C's `int`s are counted: where one leaves
its type there is no answer here.
-/
namespace Gbasic
namespace Money

open Dates (cint IsInt)
open Eval (CString MoneyValue)

/-! ## `money_parse_decimal` -/

inductive Excess where
  | reject | round
  deriving DecidableEq

def MONEY_MAX_DIGITS : Nat := 40

def MONEY_ERR_EXCESS_DIGITS : String := "money text has more decimal places than the currency can store"

def MONEY_ERR_RANGE : String := "money value is out of range"

def isBlank (b : Byte) : Bool := b = byte ' '.toNat ∨ b = byte '\t'.toNat

def skipBlanks (l : List Byte) : List Byte := l.dropWhile isBlank

def readSign : List Byte → Bool × List Byte
  | [] => (false, [])
  | b :: l => if b = byte '+'.toNat ∨ b = byte '-'.toNat then (decide (b = byte '-'.toNat), l) else (false, b :: l)

structure Scan where
  digits : List Nat
  pointExp : Int
  afterPoint : Bool
  seenDigit : Bool
  droppedNonzero : Bool

def Scan.start : Scan := ⟨[], 0, false, false, false⟩

def Scan.digit (st : Scan) (d : Nat) : Option Scan :=
  (if st.afterPoint then cint (st.pointExp + 1) else some st.pointExp).bind (fun pointExp =>
    if st.digits = [] ∧ d = 0 then some { st with pointExp, seenDigit := true }
    else if st.digits.length < MONEY_MAX_DIGITS then
      some { st with pointExp, seenDigit := true, digits := st.digits ++ [d] }
    else
      (if st.afterPoint then some pointExp else cint (pointExp - 1)).map (fun pointExp =>
        { st with pointExp, seenDigit := true, droppedNonzero := st.droppedNonzero || decide (d ≠ 0) }))

def scanDigits (st : Scan) : List Byte → Option (Except String (Scan × List Byte))
  | [] => some (.ok (st, []))
  | b :: l =>
    if b = byte '.'.toNat then
      if st.afterPoint then some (.error "money text has more than one decimal point")
      else scanDigits { st with afterPoint := true } l
    else if isDigit b = false then some (.ok (st, b :: l))
    else
      match st.digit (b.val - 48) with
      | none => none
      | some st => scanDigits st l

def clampedDigits (e : Nat) : List Byte → Nat × List Byte
  | [] => (e, [])
  | b :: l => if isDigit b then clampedDigits (if e < 100000 then e * 10 + (b.val - 48) else e) l else (e, b :: l)

def readExponent : List Byte → Except String (Int × List Byte)
  | [] => .ok (0, [])
  | b :: l =>
    if b = byte 'e'.toNat ∨ b = byte 'E'.toNat then
      let (minus, l) := readSign l
      if isDigit (l.headD 0) then
        let (e, l) := clampedDigits 0 l
        .ok (if minus then -e else e, l)
      else .error "money text has a malformed exponent"
    else .ok (0, b :: l)

def moneyRoundHalfEven (units decision : Nat) (sticky : Bool) : Bool :=
  if decision < 5 then false else if 5 < decision ∨ sticky then true else units % 2 = 1

def accumulate (limit : Nat) : Nat → List Nat → Nat → Option Nat
  | 0, _, mag => some mag
  | keep + 1, digits, mag =>
    if (limit - digits.headD 0) / 10 < mag then none
    else accumulate limit keep digits.tail (mag * 10 + digits.headD 0)

def signed (negative : Bool) (mag : Nat) : Int := if negative then -mag else mag

def limitOf (negative : Bool) : Nat := if negative then 9223372036854775808 else 9223372036854775807

def moneyUnits (negative : Bool) (digits : List Nat) (dropped : Bool) (keep : Int) (excess : Excess) :
    Except String Int :=
  if keep ≤ 0 then
    if excess = .reject ∧ (digits ≠ [] ∨ dropped) then .error MONEY_ERR_EXCESS_DIGITS
    else
      let decision := if keep = 0 then digits.headD 0 else 0
      let sticky := dropped || decide ((if keep = 0 then 1 else 0) < digits.length)
      .ok (signed negative (if moneyRoundHalfEven 0 decision sticky then 1 else 0))
  else
    match accumulate (limitOf negative) keep.toNat digits 0 with
    | none => .error MONEY_ERR_RANGE
    | some mag =>
      let below := digits.drop keep.toNat
      if keep < digits.length ∧ (dropped || below.any (· ≠ 0)) then
        if excess = .reject then .error MONEY_ERR_EXCESS_DIGITS
        else if moneyRoundHalfEven (mag % 2) (below.headD 0) (dropped || below.tail.any (· ≠ 0)) then
          if limitOf negative ≤ mag then .error MONEY_ERR_RANGE else .ok (signed negative (mag + 1))
        else .ok (signed negative mag)
      else if dropped then .error MONEY_ERR_RANGE
      else .ok (signed negative mag)

def keptDigits (st : Scan) (scale exponent : Int) : Option Int := do
  let shift ← cint (scale - st.pointExp)
  let shift ← cint (shift + exponent)
  cint (st.digits.length + shift)

def moneyFinish (negative : Bool) (st : Scan) (l : List Byte) (scale : Int) (excess : Excess) :
    Option (Except String Int) :=
  if st.seenDigit = false then some (.error "money text is not a number")
  else
    match readExponent l with
    | .error m => some (.error m)
    | .ok (exponent, l) =>
      if skipBlanks l ≠ [] then some (.error "money text has trailing characters")
      else (keptDigits st scale exponent).map (fun keep => moneyUnits negative st.digits st.droppedNonzero keep excess)

def moneyParseDecimal (s : CString) (scale : Int) (excess : Excess) : Option (Except String Int) :=
  let (negative, l) := readSign (skipBlanks s.bytes)
  match scanDigits .start l with
  | none => none
  | some (.error m) => some (.error m)
  | some (.ok (st, l)) => moneyFinish negative st l scale excess

/-! ## `money_render_exact` -/

def MONEY_GUARD_DIGITS : Nat := 4

def moneyScaleOf (m : MoneyValue) : Nat := m.exponent.toNat + MONEY_GUARD_DIGITS

def ull (n : Nat) : Nat := n % 18446744073709551616

/-- The magnitude to so many places, in one step; a power of ten that is zero in an `unsigned long long` divides it. -/
def moneyPlaces (mag scale digits : Nat) : Option Nat :=
  if digits < scale then
    let drop := ull (10 ^ (scale - digits))
    if drop = 0 then none
    else
      let q := mag / drop
      let r := mag % drop
      some (if drop < ull (r * 2) ∨ ull (r * 2) = drop ∧ q % 2 ≠ 0 then ull (q + 1) else q)
  else some (ull (mag * 10 ^ (digits - scale)))

def moneyRender (m : MoneyValue) (digits buflen : Nat) : Option (List Byte) :=
  match moneyPlaces m.units.toInt.natAbs (moneyScaleOf m) digits with
  | none => none
  | some mag =>
    let sign := if m.units.toInt < 0 ∧ mag ≠ 0 then [byte '-'.toNat] else []
    let div := ull (10 ^ digits)
    if div = 0 then none
    else if digits = 0 then some ((sign ++ decimal (mag / div)).take (buflen - 1))
    else some ((sign ++ decimal (mag / div) ++ byte '.'.toNat :: decimalPadded digits (mag % div)).take (buflen - 1))

def trimZeros (keep : Nat) (l : List Byte) : List Byte :=
  l.take keep ++ ((l.drop keep).reverse.dropWhile (· = byte 48)).reverse

def moneyRenderExact (m : MoneyValue) (buflen : Nat) : Option (List Byte) :=
  (moneyRender m (moneyScaleOf m) buflen).map (fun buf =>
    if byte '.'.toNat ∈ buf then
      let l := trimZeros (buf.idxOf (byte '.'.toNat) + 1 + m.exponent.toNat) buf
      if l.getLast? = some (byte '.'.toNat) then l.dropLast else l
    else buf)

end Money
end Gbasic
