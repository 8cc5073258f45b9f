import Gbasic.Currency
import Gbasic.Key
/-!
# Serialize — a value as bytes, and back

Version 3 writes every kind with a layout of its own: fixed fields little-endian, lengths and counts seven bits a byte.
The reader takes versions 1 to 3 by position, checking what is left of the string before it looks at it; what it would
read outside the string is a fault (`fetch`).  Versions 1 and 2 hold integers and structures as a little-endian machine
with four-byte integers keeps them.
-/
namespace Gbasic
namespace Eval

open Key (SER_NULL SER_UNKNOWN SER_BOOL SER_NUMBER SER_STRING SER_ARRAY SER_RECORD SER_DATETIME SER_DURATION SER_MONEY
  SER_FILE SER_DIR SER_ACTOR SER_FUNCTION SER_REGEX)

def SER_MAGIC : Bytes := text "gBS"
def SER_VERSION : Nat := 3
def SER_VERSION_MIN : Nat := 1
def SER_MAX_DEPTH : Nat := 256

/-! ## Values -/

/-- A string the host keeps up to a NUL. -/
structure CString where
  bytes : Bytes
  ends : ∀ b ∈ bytes, b.val ≠ 0

/-- What some bytes are as such a string. -/
def CString.of (l : Bytes) : CString := ⟨cString l, fun b hb => by simpa using List.mem_takeWhile_imp hb⟩

inductive Number where
  | exact (n : BitVec 64)
  | inexact (bits : BitVec 64)

/-- `DateTime`, each field as the host keeps it. -/
structure DateTime where
  year : BitVec 32
  month : BitVec 32
  day : BitVec 32
  hour : BitVec 32
  minute : BitVec 32
  second : BitVec 32
  timeOnly : BitVec 32
  precision : BitVec 32
  deriving DecidableEq

def PREC_YEAR : Nat := 1
def PREC_SECOND : Nat := 6

structure Duration where
  years : BitVec 32
  months : BitVec 32
  weeks : BitVec 32
  days : BitVec 32
  hours : BitVec 32
  minutes : BitVec 32
  seconds : BitVec 32

structure MoneyValue where
  units : BitVec 64
  currency : BitVec 16
  exponent : BitVec 8

structure RegexFlags where
  icase : Bool
  newline : Bool
  dotAll : Bool
  deriving DecidableEq

/-- What the reading program supplies: the patterns that compile, and the functions its names reach. -/
structure Program where
  compiles : Bytes → RegexFlags → Bool
  resolves : Option CString → CString → Bool

structure RegexValue (P : Program) where
  pattern : Bytes
  flags : RegexFlags
  compiled : P.compiles pattern flags = true

inductive Handle where
  | connection | gsqlStatement | csvSource | workbook | process | http | net | actor | watcher | boundFunction

inductive Value (P : Program) where
  | null
  | unknown
  | bool (b : Bool)
  | number (n : Number)
  | string (s : Bytes)
  | array (items : List (Value P))
  | record (fields : List (Bytes × Value P))
  | datetime (dt : DateTime)
  | duration (d : Duration)
  | money (m : MoneyValue)
  | file (path : CString)
  | dir (path : CString)
  | regex (r : RegexValue P)
  | function (name : CString) (library : Option CString)
  | handle (h : Handle)

/-! ## Writing -/

/-- The flags in their canonical order. -/
def RegexFlags.text (f : RegexFlags) : Bytes :=
  (if f.icase then [byte 105] else []) ++ (if f.newline then [byte 109] else []) ++
  (if f.dotAll then [byte 115] else [])

def serError (message : String) : Raise := ⟨text message, 1003, "actor"⟩

def Handle.refusal : Handle → Raise
  | .connection => serError "serialize: database connections cannot be serialized"
  | .gsqlStatement =>
    serError "serialize: an sql block cannot be serialized -- it names a database this process holds"
  | .csvSource => serError "serialize: a csv source cannot be serialized; send the records it reads"
  | .workbook => serError ("serialize: a workbook cannot be serialized -- it is a file parsed in this process; " ++
      "send its path (after xlsx.save) or the values read from it")
  | .process => serError "serialize: process handles cannot be serialized"
  | .http => serError "serialize: http handles cannot be serialized"
  | .net => serError "serialize: a net connection or listener cannot be serialized; it is a socket in this process"
  | .actor => serError "serialize: actor handles cannot be serialized"
  | .watcher => serError "serialize: watcher handles cannot be serialized"
  | .boundFunction => serError ("serialize: a function value carrying a bound context cannot be serialized -- " ++
      "the name would travel and the context would not")

def tooDeep : Raise := serError "serialize: value nested too deeply (possible cycle)"

/-- `serbuf_i32`. -/
def serI32 (v : BitVec 32) : Bytes := lePut 4 v.toNat

/-- `serbuf_blob`. -/
def serBlob (l : Bytes) : Bytes := uleb l.length ++ l

def serTag (tag : Nat) : Bytes := [byte tag]

def serNumber : Number → Bytes
  | .exact n => serTag 1 ++ lePut 8 n.toNat
  | .inexact bits => serTag 0 ++ lePut 8 bits.toNat

def serDateTime (dt : DateTime) : Bytes :=
  serI32 dt.year ++ serI32 dt.month ++ serI32 dt.day ++ serI32 dt.hour ++ serI32 dt.minute ++ serI32 dt.second ++
    serTag (if dt.timeOnly ≠ 0 then 1 else 0) ++ serTag dt.precision.toNat

def serDuration (d : Duration) : Bytes :=
  serI32 d.years ++ serI32 d.months ++ serI32 d.weeks ++ serI32 d.days ++ serI32 d.hours ++ serI32 d.minutes ++
    serI32 d.seconds

def serCode (alpha : Bytes) : Bytes := serTag alpha.length ++ alpha

def serMoney (cs : Currencies) (m : MoneyValue) : Bytes :=
  lePut 8 m.units.toNat ++ serTag m.exponent.toNat ++ lePut 2 m.currency.toNat ++
    serCode ((currencyAlphaOf cs m.currency).getD [])

def serFunction (name : CString) (library : Option CString) : Bytes :=
  serBlob name.bytes ++
    match library with
    | some l => serTag 1 ++ serBlob l.bytes
    | none => serTag 0

mutual

def serializeValue {P : Program} (cs : Currencies) (v : Value P) (depth : Nat) : Except Raise Bytes :=
  if SER_MAX_DEPTH < depth then .error tooDeep
  else
    match v with
    | .null => .ok (serTag SER_NULL)
    | .unknown => .ok (serTag SER_UNKNOWN)
    | .bool b => .ok (serTag SER_BOOL ++ serTag (if b then 1 else 0))
    | .number n => .ok (serTag SER_NUMBER ++ serNumber n)
    | .string s => .ok (serTag SER_STRING ++ serBlob s)
    | .array items =>
      match serializeItems cs items (depth + 1) with
      | .error e => .error e
      | .ok b => .ok (serTag SER_ARRAY ++ uleb items.length ++ b)
    | .record fields =>
      match serializeFields cs fields (depth + 1) with
      | .error e => .error e
      | .ok b => .ok (serTag SER_RECORD ++ uleb fields.length ++ b)
    | .datetime dt => .ok (serTag SER_DATETIME ++ serDateTime dt)
    | .duration d => .ok (serTag SER_DURATION ++ serDuration d)
    | .money m => .ok (serTag SER_MONEY ++ serMoney cs m)
    | .file path => .ok (serTag SER_FILE ++ serBlob path.bytes)
    | .dir path => .ok (serTag SER_DIR ++ serBlob path.bytes)
    | .regex r => .ok (serTag SER_REGEX ++ serBlob r.pattern ++ serBlob r.flags.text)
    | .function name library => .ok (serTag SER_FUNCTION ++ serFunction name library)
    | .handle h => .error h.refusal

def serializeItems {P : Program} (cs : Currencies) (items : List (Value P)) (depth : Nat) : Except Raise Bytes :=
  match items with
  | [] => .ok []
  | v :: vs =>
    match serializeValue cs v depth with
    | .error e => .error e
    | .ok b =>
      match serializeItems cs vs depth with
      | .error e => .error e
      | .ok bs => .ok (b ++ bs)

def serializeFields {P : Program} (cs : Currencies) (fields : List (Bytes × Value P)) (depth : Nat) :
    Except Raise Bytes :=
  match fields with
  | [] => .ok []
  | (name, v) :: fs =>
    match serializeValue cs v depth with
    | .error e => .error e
    | .ok b =>
      match serializeFields cs fs depth with
      | .error e => .error e
      | .ok bs => .ok (serBlob name ++ b ++ bs)

end

/-- The builtin: the magic, the version and the value. -/
def serialize {P : Program} (cs : Currencies) (v : Value P) : Except Raise Bytes :=
  match serializeValue cs v 0 with
  | .error e => .error e
  | .ok b => .ok (SER_MAGIC ++ serTag SER_VERSION ++ b)

/-! ## Reading -/

structure SerReader where
  data : Bytes
  pos : Nat
  ok : Bool
  version : Nat

abbrev Rd := StateT SerReader Option

def fetch (data : Bytes) (pos n : Nat) : Option Bytes :=
  if pos + n ≤ data.length then some ((data.drop pos).take n) else none

def serOk : Rd Bool := fun r => some (r.ok, r)

/-- The read is corrupt, with a placeholder for its value. -/
def corrupt {α : Type} (a : α) : Rd α := fun r => some (a, { r with ok := false })

def serSlice (n : Nat) : Rd Bytes := fun r =>
  (fetch r.data r.pos n).map (fun b => (b, { r with pos := (r.pos + n) % 2 ^ 64 }))

def serreadBytes (n : Nat) : Rd (Option Bytes) := fun r =>
  if r.ok = false ∨ r.data.length < (r.pos + n) % 2 ^ 64 then corrupt none r
  else (serSlice n r).map (fun p => (some p.1, p.2))

def serreadU8 : Rd Byte := do return ((← serreadBytes 1).bind List.head?).getD 0

def serreadLe (width : Nat) : Rd Nat := do return leNat ((← serreadBytes width).getD [])

/-- `serread_uleb`, the rounds left and the shift of the next. -/
def serreadUlebFrom : Nat → Nat → Nat → Rd Nat
  | 0, _, _ => corrupt 0
  | n + 1, shift, v => do
    let b ← serreadU8
    if (← serOk) = false then return 0
    if shift = 63 ∧ 2 ≤ b.val % 128 then corrupt 0
    else
      let v := v + b.val % 128 * 2 ^ shift
      if b.val < 128 then return v else serreadUlebFrom n (shift + 7) v

def serreadUleb : Rd Nat := serreadUlebFrom 10 0 0

def serreadI32 : Rd (BitVec 32) := do return BitVec.ofNat 32 (← serreadLe 4)

def serVersion : Rd Nat := fun r => some (r.version, r)

def serreadCount : Rd Nat := do if 3 ≤ (← serVersion) then serreadUleb else serreadLe 8

def serFits (n : Nat) : Rd Bool := fun r =>
  some (r.ok && decide (n ≤ (r.data.length + 2 ^ 64 - r.pos) % 2 ^ 64), r)

def serreadBlob : Rd (Option Bytes) := do
  let len ← serreadCount
  if (← serFits len) = false then corrupt none
  else return some (← serSlice len)

def regexParseFlags : RegexFlags → Bytes → Option RegexFlags
  | f, [] => some f
  | f, b :: l =>
    if b.val = 105 then regexParseFlags { f with icase := true } l
    else if b.val = 109 then regexParseFlags { f with newline := true } l
    else if b.val = 115 then regexParseFlags { f with dotAll := true } l
    else none

def regexCompile (P : Program) (pattern flags : Bytes) : Option (RegexValue P) :=
  match regexParseFlags ⟨false, false, false⟩ flags with
  | none => none
  | some f => if h : P.compiles pattern f = true then some ⟨pattern, f, h⟩ else none

section
variable (P : Program) (cs : Currencies)

def deserNumber : Rd (Value P) := do
  if 3 ≤ (← serVersion) then
    let exact ← serreadU8
    let bits ← serreadLe 8
    if (← serOk) = false ∨ 1 < exact.val then corrupt .null
    else if exact.val = 1 then return .number (.exact bits)
    else return .number (.inexact bits)
  else return .number (.inexact (← serreadLe 8))

def deserString (tag : Nat) : Rd (Value P) := do
  match ← serreadBlob with
  | none => return .null
  | some b =>
    if tag = SER_STRING then return .string b
    else if tag = SER_FILE then return .file (.of b)
    else return .dir (.of b)

def deserDateTime : Rd (Value P) := do
  if 3 ≤ (← serVersion) then
    let year ← serreadI32
    let month ← serreadI32
    let day ← serreadI32
    let hour ← serreadI32
    let minute ← serreadI32
    let second ← serreadI32
    let timeOnly ← serreadU8
    let precision ← serreadU8
    if (← serOk) = false ∨ 1 < timeOnly.val ∨ precision.val < PREC_YEAR ∨ PREC_SECOND < precision.val then corrupt .null
    else return .datetime ⟨year, month, day, hour, minute, second, timeOnly.val, precision.val⟩
  else
    -- the structure as the writer kept it
    let b := (← serreadBytes 32).getD (List.replicate 32 0)
    let field (i : Nat) : BitVec 32 := leNat ((b.drop (4 * i)).take 4)
    return .datetime ⟨field 0, field 1, field 2, field 3, field 4, field 5, field 6, field 7⟩

def deserDuration : Rd (Value P) := do
  if 3 ≤ (← serVersion) then
    let years ← serreadI32
    let months ← serreadI32
    let weeks ← serreadI32
    let days ← serreadI32
    let hours ← serreadI32
    let minutes ← serreadI32
    let seconds ← serreadI32
    if (← serOk) = false then return .null
    else return .duration ⟨years, months, weeks, days, hours, minutes, seconds⟩
  else
    let b := (← serreadBytes 28).getD (List.replicate 28 0)
    let field (i : Nat) : BitVec 32 := leNat ((b.drop (4 * i)).take 4)
    return .duration ⟨field 0, field 1, field 2, field 3, field 4, field 5, field 6⟩

def MONEY_CURRENCY_USD : BitVec 16 := 840

/-- `value_money_cents`: cents at the guard scale, held to what sixty-four bits have. -/
def moneyCents (cents : Int) : MoneyValue :=
  let units := cents * 10000
  let held := if units < -2 ^ 63 ∨ 2 ^ 63 ≤ units then (if 0 < cents then 2 ^ 63 - 1 else -2 ^ 63) else units
  ⟨BitVec.ofInt 64 held, MONEY_CURRENCY_USD, 2⟩

def localCurrency (alpha : Bytes) (currency : BitVec 16) : BitVec 16 :=
  if alpha = [] then currency
  else
    match currencyFindAlpha cs (cString alpha) with
    | some (n, _, _) => n
    | none => currency

def deserMoney : Rd (Value P) := do
  if 3 ≤ (← serVersion) then
    let units ← serreadLe 8
    let exponent ← serreadU8
    let currency ← serreadLe 2
    let alen ← serreadU8
    if (← serOk) = false ∨ 8 ≤ alen.val then corrupt .null
    else
      match ← serreadBytes alen.val with
      | none => corrupt .null
      | some alpha => return .money ⟨units, localCurrency cs alpha currency, exponent.val⟩
  else if 2 ≤ (← serVersion) then
    let units ← serreadLe 8
    let currency ← serreadLe 2
    let exponent ← serreadU8
    return .money ⟨units, currency, exponent.val⟩
  else return .money (moneyCents (BitVec.ofNat 64 (← serreadLe 8)).toInt)

def deserActor : Rd (Value P) := do
  let _ ← serreadCount
  if (← serOk) = false then return .null
  else corrupt .null

def deserFunction : Rd (Value P) := do
  match ← serreadBlob with
  | none => return .null
  | some name =>
    let hasLibrary ← serreadU8
    let library ← (if (← serOk) = true ∧ hasLibrary.val ≠ 0 then serreadBlob else return none)
    if (← serOk) = false then return .null
    else
      let library := library.map CString.of
      if P.resolves library (.of name) then return .function (.of name) library
      else corrupt .null

def deserRegex : Rd (Value P) := do
  match ← serreadBlob with
  | none => return .null
  | some pattern =>
    match ← serreadBlob with
    | none => return .null
    | some flags =>
      match regexCompile P pattern flags with
      | none => corrupt .null
      | some r => return .regex r

def deserItems (read : Rd (Value P)) : Nat → Rd (Option (List (Value P)))
  | 0 => return some []
  | n + 1 => do
    let v ← read
    if (← serOk) = false then return none
    else return (← deserItems read n).map (v :: ·)

def deserFields (read : Rd (Value P)) : Nat → Rd (Option (List (Bytes × Value P)))
  | 0 => return some []
  | n + 1 => do
    match ← serreadBlob with
    | none => return none
    | some name =>
      let v ← read
      if (← serOk) = false then return none
      else return (← deserFields read n).map ((name, v) :: ·)

def deserArray (read : Rd (Value P)) : Rd (Value P) := do
  let count ← serreadCount
  if (← serFits count) = false then corrupt .null
  else
    match ← deserItems P read count with
    | none => return .null
    | some items => return .array items

def deserRecord (read : Rd (Value P)) : Rd (Value P) := do
  let count ← serreadCount
  if (← serFits count) = false then corrupt .null
  else
    match ← deserFields P read count with
    | none => return .null
    | some fields => return .record fields

def deserKind (read : Rd (Value P)) (tag : Nat) : Rd (Value P) :=
  if tag = SER_NULL then return .null
  else if tag = SER_UNKNOWN then return .unknown
  else if tag = SER_BOOL then do return .bool ((← serreadU8).val ≠ 0)
  else if tag = SER_NUMBER then deserNumber P
  else if tag = SER_STRING ∨ tag = SER_FILE ∨ tag = SER_DIR then deserString P tag
  else if tag = SER_ARRAY then deserArray P read
  else if tag = SER_RECORD then deserRecord P read
  else if tag = SER_DATETIME then deserDateTime P
  else if tag = SER_DURATION then deserDuration P
  else if tag = SER_MONEY then deserMoney P cs
  else if tag = SER_ACTOR then deserActor P
  else if tag = SER_FUNCTION then deserFunction P
  else if tag = SER_REGEX then deserRegex P
  else corrupt .null

/-- `deserialize_value`, the levels that are left before it gives up. -/
def deserializeValue : Nat → Rd (Value P)
  | 0 => corrupt .null
  | left + 1 => do
    if (← serOk) = false then corrupt .null
    else
      let tag ← serreadU8
      if (← serOk) = false then return .null
      else deserKind P cs (deserializeValue left) tag.val

def notSerialized : Raise := serError "deserialize: not a valid serialized value"

def corruptData : Raise := serError "deserialize: corrupt or truncated serialized data"

/-- The builtin: nothing where a read went outside the string. -/
def deserialize (data : Bytes) : Option (Except Raise (Value P)) :=
  if data.length < 4 then some (.error notSerialized)
  else do
    let (m0, r) ← serreadU8 ⟨data, 0, true, 0⟩
    let (m1, r) ← serreadU8 r
    let (m2, r) ← serreadU8 r
    let (version, r) ← serreadU8 r
    if [m0, m1, m2] ≠ SER_MAGIC ∨ version.val < SER_VERSION_MIN ∨ SER_VERSION < version.val then
      return .error notSerialized
    else
      let (v, r) ← deserializeValue P cs (SER_MAX_DEPTH + 1) { r with version := version.val }
      if r.ok = false ∨ r.pos ≠ r.data.length then return .error corruptData
      else return .ok v

end

end Eval
end Gbasic
