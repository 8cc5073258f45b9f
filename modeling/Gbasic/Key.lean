import Mathlib.Data.Int.Basic
import Gbasic.Bytes
/-!
# Key — the index key encoding

A value, as `serialize` writes it, becomes one component of a key (`keyAppend`); a composite key is its components one
after another, and a descending component is the same bytes turned over.  `keySkip` is a component's length, read from
its bytes.  A read past the end fails at once here, where the source turns a flag off and looks at it later.
-/
namespace Gbasic
namespace Key

abbrev Bytes := List Byte

/-! ## Tags -/

def SER_NULL : Nat := 1
def SER_UNKNOWN : Nat := 2
def SER_BOOL : Nat := 3
def SER_NUMBER : Nat := 4
def SER_STRING : Nat := 5
def SER_ARRAY : Nat := 6
def SER_RECORD : Nat := 7
def SER_DATETIME : Nat := 8
def SER_DURATION : Nat := 9
def SER_MONEY : Nat := 10
def SER_FILE : Nat := 11
def SER_DIR : Nat := 12
def SER_ACTOR : Nat := 13
def SER_FUNCTION : Nat := 14
def SER_REGEX : Nat := 15

def KEY_BOOL : Nat := 0x10
def KEY_NEG_INF : Nat := 0x21
def KEY_NEGATIVE : Nat := 0x22
def KEY_ZERO : Nat := 0x23
def KEY_POSITIVE : Nat := 0x24
def KEY_POS_INF : Nat := 0x25
def KEY_NAN : Nat := 0x26
def KEY_STRING : Nat := 0x30
def KEY_MONEY_TYPED : Nat := 0x40
def KEY_MONEY : Nat := 0x41
def KEY_DATETIME : Nat := 0x52
def KEY_ABSENT : Nat := 0xF0

def EXPONENT_BIAS : Int := 1100

/-- `GSQL_KEY_DESC`, `GSQL_KEY_MONEY_TYPED`. -/
structure KeyFlags where
  desc : Bool
  moneyTyped : Bool
  deriving DecidableEq, Repr

inductive KeyStatus where
  | ok | corrupt | notIndexable
  deriving DecidableEq, Repr

/-! ## Writing a component -/

/-- A signed integer of `w` bytes, given by its bits, with its sign bit flipped. -/
def putSigned (w bits : Nat) : Bytes := bePut w ((bits + 2 ^ (8 * w - 1)) % 2 ^ (8 * w))

def topBit (m : Nat) : Nat → Nat
  | 0 => 0
  | t + 1 => if m / 2 ^ (t + 1) = 0 then topBit m t else t + 1

/-- A number's magnitude `m * 2 ^ e` as a tag, a biased exponent and the fraction after the leading one. -/
def putMagnitude (negative : Bool) (m : Nat) (e : Int) : Bytes :=
  let top := topBit m 63
  let exponent : Int := top + e
  let fraction := m * 2 ^ (63 - top) % 2 ^ 64 * 2 % 2 ^ 64
  let biased := ((exponent + EXPONENT_BIAS) % (2 ^ 64 : Int)).toNat
  -- a larger magnitude is a smaller number, so both fields are turned over
  let biased' := if negative then 0xffff - biased % 0x10000 else biased
  let fraction' := if negative then 2 ^ 64 - 1 - fraction else fraction
  byte (if negative then KEY_NEGATIVE else KEY_POSITIVE) :: (bePut 2 biased' ++ bePut 8 fraction')

def keyNumber (l : Bytes) : Except KeyStatus (Bytes × Bytes) :=
  match leGet 1 l with
  | none => .error .corrupt
  | some (exact, l) =>
    match leGet 8 l with
    | none => .error .corrupt
    | some (bits, l) =>
      if 1 < exact then .error .corrupt
      else if exact = 1 then
        if bits = 0 then .ok ([byte KEY_ZERO], l)
        else if 2 ^ 63 ≤ bits then .ok (putMagnitude true (2 ^ 64 - bits) 0, l)
        else .ok (putMagnitude false bits 0, l)
      else
        let negative := decide (bits / 2 ^ 63 = 1)
        let field : Nat := bits / 2 ^ 52 % 2 ^ 11
        let frac := bits % 2 ^ 52
        if field = 0x7ff then
          .ok ([byte (if frac ≠ 0 then KEY_NAN else if negative then KEY_NEG_INF else KEY_POS_INF)], l)
        else if field = 0 ∧ frac = 0 then .ok ([byte KEY_ZERO], l)
        else if field = 0 then .ok (putMagnitude negative frac (-1074), l)
        else .ok (putMagnitude negative (frac + 2 ^ 52) ((field : Int) - 1075), l)

def escape : Bytes → Bytes
  | [] => []
  | b :: l => if b.val = 0 then byte 0 :: byte 0xFF :: escape l else b :: escape l

def keyString (l : Bytes) : Except KeyStatus (Bytes × Bytes) :=
  match ulebGet 10 0 0 l with
  | none => .error .corrupt
  | some (n, l) =>
    if l.length < n then .error .corrupt
    else .ok (byte KEY_STRING :: (escape (l.take n) ++ [byte 0, byte 0]), l.drop n)

def putCurrency (numeric : Nat) (alpha : Bytes) : Bytes :=
  byte KEY_MONEY :: (if alpha ≠ [] then alpha ++ [byte 0] else byte 1 :: bePut 2 numeric)

/-- Money: its units, its exponent, which is its currency's, and its currency by number and by letters. -/
def keyMoney (l : Bytes) (fl : KeyFlags) : Except KeyStatus (Bytes × Bytes) :=
  match leGet 8 l with
  | none => .error .corrupt
  | some (units, l) =>
    match leGet 1 l with
    | none => .error .corrupt
    | some (_, l) =>
      match leGet 2 l with
      | none => .error .corrupt
      | some (numeric, l) =>
        match leGet 1 l with
        | none => .error .corrupt
        | some (alen, l) =>
          if 7 < alen ∨ l.length < alen then .error .corrupt
          else
            let head := if fl.moneyTyped then [byte KEY_MONEY_TYPED] else putCurrency numeric (l.take alen)
            .ok (head ++ putSigned 8 units, l.drop alen)

def leFields : Nat → Bytes → Option (List Nat × Bytes)
  | 0, l => some ([], l)
  | n + 1, l =>
    match leGet 4 l with
    | none => none
    | some (v, l) => (leFields n l).map (fun p => (v :: p.1, p.2))

/-- A datetime: year, month, day, hour, minute, second, whether it is a time only, and its precision. -/
def keyDatetime (l : Bytes) : Except KeyStatus (Bytes × Bytes) :=
  match leFields 6 l with
  | none => .error .corrupt
  | some (f, l) =>
    match leGet 1 l with
    | none => .error .corrupt
    | some (timeOnly, l) =>
      match leGet 1 l with
      | none => .error .corrupt
      | some (precision, l) =>
        if 1 < timeOnly ∨ precision < 1 ∨ 6 < precision then .error .corrupt
        else
          .ok (byte KEY_DATETIME :: byte timeOnly ::
            (((f.drop (if timeOnly = 1 then 3 else 0)).flatMap (putSigned 4)) ++ [byte precision]), l)

def component (value : Bytes) (fl : KeyFlags) : Except KeyStatus (Bytes × Bytes) :=
  match leGet 1 value with
  | none => .error .corrupt
  | some (tag, l) =>
    if tag = SER_NULL ∨ tag = SER_UNKNOWN then .ok ([byte KEY_ABSENT], l)
    else if tag = SER_BOOL then
      match leGet 1 l with
      | none => .error .corrupt
      | some (b, l) => if 1 < b then .error .corrupt else .ok ([byte KEY_BOOL, byte b], l)
    else if tag = SER_NUMBER then keyNumber l
    else if tag = SER_STRING then keyString l
    else if tag = SER_MONEY then keyMoney l fl
    else if tag = SER_DATETIME then keyDatetime l
    else if tag = SER_DURATION ∨ tag = SER_ARRAY ∨ tag = SER_RECORD ∨ tag = SER_FILE ∨ tag = SER_DIR ∨
        tag = SER_ACTOR ∨ tag = SER_FUNCTION ∨ tag = SER_REGEX then .error .notIndexable
    else .error .corrupt

/-- `gsql_key_append`: a status, the key with the component appended, and how many bytes the value took. -/
def keyAppend (key value : Bytes) (fl : KeyFlags) : KeyStatus × Bytes × Nat :=
  match component value fl with
  | .error st => (st, key, 0)
  | .ok (c, rest) => (.ok, key ++ (if fl.desc then c.map notByte else c), value.length - rest.length)

/-! ## Skipping one -/

def zeroAt : Nat → Bytes → Option Nat
  | _, [] => none
  | i, b :: l => if b.val = 0 then some i else zeroAt (i + 1) l

def stringEnd : Nat → Bytes → Option Nat
  | _, [] => none
  | _, [_] => none
  | i, a :: b :: l =>
    if a.val = 0 then
      if b.val = 0 then some (i + 2) else if b.val = 0xFF then stringEnd (i + 2) l else none
    else stringEnd (i + 1) (b :: l)

def componentLen : Bytes → Option Nat
  | [] => none
  | t :: l =>
    let tag := t.val
    if tag = KEY_ABSENT ∨ tag = KEY_NEG_INF ∨ tag = KEY_ZERO ∨ tag = KEY_POS_INF ∨ tag = KEY_NAN then some 1
    else if tag = KEY_BOOL then some 2
    else if tag = KEY_NEGATIVE ∨ tag = KEY_POSITIVE then some 11
    else if tag = KEY_MONEY_TYPED then some 9
    else if tag = KEY_MONEY then
      match l with
      | [] => none
      | a :: _ => if a.val = 1 then some (1 + 1 + 2 + 8) else (zeroAt 1 l).map (fun i => i + 1 + 8)
    else if tag = KEY_DATETIME then
      match l with
      | [] => none
      | o :: _ => if 1 < o.val then none else some (2 + (if o.val = 1 then 3 else 6) * 4 + 1)
    else if tag = KEY_STRING then stringEnd 1 l
    else none

/-- `gsql_key_skip`: a descending component is read turned over. -/
def keySkip (bytes : Bytes) (fl : KeyFlags) : KeyStatus × Nat :=
  match componentLen (if fl.desc then bytes.map notByte else bytes) with
  | none => (.corrupt, 0)
  | some n => if bytes.length < n then (.corrupt, 0) else (.ok, n)

end Key
end Gbasic
