import Gbasic.Double
import Gbasic.Serialize
/-!
# ValueEqual — the operator `=` and the deep comparison

`storageEqual` is `value_storage_equal`, which compares arrays and records all the way down, and `evalEquals` the
operator without a modifier on two values.  An array carries the store it shares with its copies, whose identity the
deep comparison looks at first.
-/
namespace Gbasic
namespace Same

open Eval (CString DateTime RegexFlags)

deriving instance DecidableEq for Eval.CString
deriving instance DecidableEq for Eval.Duration
deriving instance DecidableEq for Eval.MoneyValue

abbrev Bytes := List Byte

/-! ## Values -/

inductive Handle where
  | postgresConnection | sqliteConnection | odbcConnection | ldapConnection | gsqlConnection | gsqlStatement
  | xmlReader | csvSource | actor | process | http | net | workbook
  deriving DecidableEq

inductive Value where
  | null
  | unknown
  | number (n : Eval.Number)
  | string (s : Bytes)
  | bool (b : Bool)
  | array (store : Nat) (items : List Value)
  | record (fields : List (Bytes × Value))
  | datetime (dt : DateTime)
  | duration (d : Eval.Duration)
  | money (m : Eval.MoneyValue)
  | file (path : CString)
  | dir (path : CString)
  | handle (k : Handle) (id : Nat)
  | function (name : CString) (library : Option CString)
  | regex (pattern : Bytes) (flags : RegexFlags)
  | watcher (id : Nat)

/-! ## Numbers -/

/-- What a number stands for. -/
def key : Eval.Number → Double
  | .exact n => .finite n.toInt
  | .inexact bits => .ofBits bits

def numberIsNan (n : Eval.Number) : Bool :=
  match n with
  | .exact _ => false
  | .inexact bits => (Double.ofBits bits).isNan

/-- `number_compare_exactly`, nothing where it answers that the two have no order. -/
def numberCompareExactly : Eval.Number → Eval.Number → Option Ordering
  | .exact x, .exact y => some (compare x.toInt y.toInt)
  | .exact x, .inexact b => Double.compareInt x.toInt (.ofBits b)
  | .inexact a, .exact y => (Double.compareInt y.toInt (.ofBits a)).map Ordering.swap
  | .inexact a, .inexact b =>
    if (Double.ofBits a).isNan || (Double.ofBits b).isNan then none
    else if (Double.ofBits b).lt (.ofBits a) then some .gt
    else if (Double.ofBits a).lt (.ofBits b) then some .lt
    else some .eq

def numberSameValue (l r : Eval.Number) : Bool :=
  if numberIsNan l || numberIsNan r then numberIsNan l && numberIsNan r
  else decide (numberCompareExactly l r = some .eq)

/-! ## The other kinds -/

/-- `string_value_compare`: the bytes, then the length. -/
def stringCompare : Bytes → Bytes → Ordering
  | [], [] => .eq
  | [], _ :: _ => .lt
  | _ :: _, [] => .gt
  | a :: l, b :: m => if a < b then .lt else if b < a then .gt else stringCompare l m

/-- `datetime_compare_exact`: the first difference, the date left out where both are times of day. -/
def datetimeCompareExact (l r : DateTime) : Ordering :=
  let timeOnly (dt : DateTime) : Int := if dt.timeOnly ≠ 0 then 1 else 0
  (compare (timeOnly l) (timeOnly r)).then <|
    (if l.timeOnly ≠ 0 then .eq
      else (compare l.year.toInt r.year.toInt).then <|
        (compare l.month.toInt r.month.toInt).then (compare l.day.toInt r.day.toInt)).then <|
    (compare l.hour.toInt r.hour.toInt).then <|
    (compare l.minute.toInt r.minute.toInt).then <|
    (compare l.second.toInt r.second.toInt).then (compare l.precision.toInt r.precision.toInt)

/-- `duration_totals`: the months and the seconds. -/
def durationTotals (d : Eval.Duration) : Int × Int :=
  (d.years.toInt * 12 + d.months.toInt,
    (d.weeks.toInt * 7 + d.days.toInt) * 86400 + d.hours.toInt * 3600 + d.minutes.toInt * 60 + d.seconds.toInt)

/-- `function_value_equal`: the name, and the library where there is one. -/
def functionEqual (name name' : CString) (library library' : Option CString) : Bool :=
  if name ≠ name' then false
  else
    match library, library' with
    | none, none => true
    | some l, some l' => decide (l = l')
    | _, _ => false

/-- `regex_same_pattern`, and the flags as they are written. -/
def regexEqual (p p' : Bytes) (f f' : RegexFlags) : Bool := decide (p = p') && decide (f.text = f'.text)

/-- `record_find_const_n`: the first field of a name. -/
def findField (name : Bytes) : List (Bytes × Value) → Option Value
  | [] => none
  | (n, v) :: l => if n = name then some v else findField name l

/-! ## The deep comparison -/

mutual

def storageEqual : Value → Value → Bool
  | .null, .null => true
  | .unknown, .unknown => true
  | .number l, .number r => numberSameValue l r
  | .string l, .string r => decide (l = r)
  | .bool l, .bool r => decide (l = r)
  | .array s l, .array t r => if s = t then true else decide (l.length = r.length) && itemsEqual l r
  | .record l, .record r => decide (l.length = r.length) && fieldsEqual l r
  | .datetime l, .datetime r =>
    decide (l.year = r.year) && decide (l.month = r.month) && decide (l.day = r.day) && decide (l.hour = r.hour) &&
      decide (l.minute = r.minute) && decide (l.second = r.second) && decide (l.timeOnly = r.timeOnly) &&
      decide (l.precision = r.precision)
  | .duration l, .duration r =>
    decide (l.years = r.years) && decide (l.months = r.months) && decide (l.weeks = r.weeks) &&
      decide (l.days = r.days) && decide (l.hours = r.hours) && decide (l.minutes = r.minutes) &&
      decide (l.seconds = r.seconds)
  | .money l, .money r =>
    decide (l.units = r.units) && decide (l.currency = r.currency) && decide (l.exponent = r.exponent)
  | .file l, .file r => decide (l = r)
  | .dir l, .dir r => decide (l = r)
  | .handle k id, .handle k' id' => decide (k = k') && decide (id = id')
  | .function n l, .function n' l' => functionEqual n n' l l'
  | .regex p f, .regex p' f' => regexEqual p p' f f'
  | .watcher id, .watcher id' => decide (id = id')
  | _, _ => false

def itemsEqual : List Value → List Value → Bool
  | v :: l, w :: r => storageEqual v w && itemsEqual l r
  | _, _ => true

def fieldsEqual : List (Bytes × Value) → List (Bytes × Value) → Bool
  | [], _ => true
  | (n, v) :: l, r =>
    (match findField n r with
      | some w => storageEqual v w
      | none => false) && fieldsEqual l r

end

/-! ## The operator -/

/-- What `=` answers. -/
inductive Answer where
  | unknown
  | bool (b : Bool)
  | raised (message : String)
  deriving DecidableEq

/-- `value_number_or_zero` of a number or a boolean.  An integer is no double nearer to 0 or 1, all it is compared
with. -/
def numberOrZero : Value → Double
  | .number n => key n
  | .bool b => .finite (if b then 1 else 0)
  | _ => .finite 0

/-- `eval_comparison` for `=`, without a modifier. -/
def evalEquals : Value → Value → Answer
  | .unknown, _ => .unknown
  | _, .unknown => .unknown
  | .datetime l, .datetime r => .bool (datetimeCompareExact l r = .eq)
  | .datetime _, _ => .raised "date/time comparison requires date/time values"
  | _, .datetime _ => .raised "date/time comparison requires date/time values"
  | .duration l, .duration r => .bool (durationTotals l = durationTotals r)
  | .duration _, _ => .bool false
  | _, .duration _ => .bool false
  | .string l, .string r => .bool (stringCompare l r = .eq)
  | .money l, .money r => .bool ((l.currency = r.currency ∧ l.exponent = r.exponent) ∧ l.units = r.units)
  | .money _, _ => .raised "money comparison requires money values"
  | _, .money _ => .raised "money comparison requires money values"
  | .array s l, .array t r => .bool (storageEqual (.array s l) (.array t r))
  | .array _ _, _ => .bool false
  | _, .array _ _ => .bool false
  | .record l, .record r => .bool (storageEqual (.record l) (.record r))
  | .record _, _ => .bool false
  | _, .record _ => .bool false
  | .function n l, .function n' l' => .bool (functionEqual n n' l l')
  | .function _ _, _ => .bool false
  | _, .function _ _ => .bool false
  | .watcher id, .watcher id' => .bool (id = id')
  | .watcher _, _ => .bool false
  | _, .watcher _ => .bool false
  | .regex p f, .regex p' f' => .bool (regexEqual p p' f f')
  | .regex _ _, _ => .bool false
  | _, .regex _ _ => .bool false
  | .null, .null => .bool true
  | .null, _ => .bool false
  | _, .null => .bool false
  | .string _, _ => .bool false
  | _, .string _ => .bool false
  -- two numbers of which one is exact, two inexact ones, or a boolean
  | .number (.exact x), .number r => .bool (numberCompareExactly (.exact x) r = some .eq)
  | .number l, .number (.exact y) => .bool (numberCompareExactly l (.exact y) = some .eq)
  | .number l, .number r => .bool ((key l).eq (key r))
  | .number l, .bool r => .bool ((key l).eq (numberOrZero (.bool r)))
  | .bool l, .number r => .bool ((numberOrZero (.bool l)).eq (key r))
  | .bool l, .bool r => .bool ((numberOrZero (.bool l)).eq (numberOrZero (.bool r)))
  | l, r => .bool (storageEqual l r)

end Same
end Gbasic
