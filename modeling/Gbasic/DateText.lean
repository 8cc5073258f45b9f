import Gbasic.Bytes
import Gbasic.DateZone
import Mathlib.Data.Nat.Digits.Lemmas
/-!
# DateText — datetimes read from text

The strict reader goes by positions, an offset moves what it read, and a layout is read a run of one letter at a time.
A text is a string of C's: the byte past its end reads as zero.  What is said of a text that is no date is left out.
-/
namespace Gbasic
namespace Dates

/-! ## Digits -/

def isAlpha (b : Byte) : Bool := 65 ≤ b.val ∧ b.val ≤ 90 ∨ 97 ≤ b.val ∧ b.val ≤ 122

def charAt (s : List Byte) (i : Nat) : Byte := s.getD i 0

def isAt (s : List Byte) (i : Nat) (c : Char) : Bool := charAt s i = byte c.toNat

def allDigits (s : List Byte) (start count : Nat) : Bool :=
  (List.range count).all (fun i => isDigit (charAt s (start + i)))

def parseIntSpan (s : List Byte) (start count : Nat) : Int :=
  (List.range count).foldl (fun v i => v * 10 + ((charAt s (start + i)).val - 48 : Int)) 0

/-! ## Dates there are -/

/-- `date_parts_fault`, whose table of days and leap rule are `days_in_month`'s. -/
def datePartsFault (dt : DateTime) : Bool :=
  if dt.timeOnly then
    dt.hour < 0 ∨ 23 < dt.hour ∨ 5 ≤ dt.precision.rank ∧ (dt.minute < 0 ∨ 59 < dt.minute) ∨
      6 ≤ dt.precision.rank ∧ (dt.second < 0 ∨ 59 < dt.second)
  else
    dt.month < 1 ∨ 12 < dt.month ∨ 3 ≤ dt.precision.rank ∧ (dt.day < 1 ∨ daysInMonth dt.year dt.month < dt.day) ∨
      4 ≤ dt.precision.rank ∧ (dt.hour < 0 ∨ 23 < dt.hour) ∨ 5 ≤ dt.precision.rank ∧ (dt.minute < 0 ∨ 59 < dt.minute) ∨
      6 ≤ dt.precision.rank ∧ (dt.second < 0 ∨ 59 < dt.second)

def sound (dt : DateTime) : Option DateTime := if datePartsFault dt then none else some dt

/-! ## ISO text -/

/-- The hours and minutes of a zone's sign, of `+HH`, `+HHMM` or `+HH:MM`. -/
def zoneDigits (p : List Byte) : Option (Int × Int) :=
  if p.length = 2 ∧ allDigits p 0 2 then some (parseIntSpan p 0 2, 0)
  else if p.length = 4 ∧ allDigits p 0 4 then some (parseIntSpan p 0 2, parseIntSpan p 2 2)
  else if p.length = 5 ∧ allDigits p 0 2 ∧ isAt p 2 ':' ∧ allDigits p 3 2 then
    some (parseIntSpan p 0 2, parseIntSpan p 3 2)
  else none

/-- The loop over what is past the separator, from the end: `i` is `n + 11`. -/
def stripSign (buf : List Byte) : Nat → Option (List Byte × Int)
  | 0 => some (buf, 0)
  | n + 1 =>
    if isAt buf (n + 11) '+' ∨ isAt buf (n + 11) '-' then
      match zoneDigits (buf.drop (n + 12)) with
      | none => none
      | some (hh, mm) =>
        if 23 < hh ∨ 59 < mm then none
        else some (buf.take (n + 11), (hh * 3600 + mm * 60) * (if isAt buf (n + 11) '-' then -1 else 1))
    else stripSign buf n

/-- `datetime_strip_zone`: the text without its zone, and the seconds of that. -/
def datetimeStripZone (s : List Byte) : Option (List Byte × Int) :=
  if s.length = 0 ∨ 64 ≤ s.length then none
  else if s.length ≤ 10 ∨ isAt s 10 ' ' = false ∧ isAt s 10 'T' = false then some (s, 0)
  else
    let buf := s.set 10 (byte ' '.toNat)
    if 11 < s.length ∧ (isAt buf (s.length - 1) 'Z' ∨ isAt buf (s.length - 1) 'z') then some (buf.dropLast, 0)
    else stripSign buf (s.length - 11)

def newYearOf (year : Int) : DateTime := ⟨year, 1, 1, 0, 0, 0, false, .year⟩

def strictField (s : List Byte) (i : Nat) (sep : Char) (read : Int → DateTime) (more : DateTime → Option DateTime) :
    Option DateTime :=
  if s.length < i + 3 ∨ isAt s i sep = false ∨ allDigits s (i + 1) 2 = false then none
  else if s.length = i + 3 then sound (read (parseIntSpan s (i + 1) 2))
  else more (read (parseIntSpan s (i + 1) 2))

def parseDateValueStrict (s : List Byte) : Option DateTime :=
  if s.length < 4 ∨ allDigits s 0 4 = false then none
  else if s.length = 4 then some (newYearOf (parseIntSpan s 0 4))
  else
    strictField s 4 '-' (fun v => { newYearOf (parseIntSpan s 0 4) with month := v, precision := .month }) fun dt =>
    strictField s 7 '-' (fun v => { dt with day := v, precision := .day }) fun dt =>
    strictField s 10 ' ' (fun v => { dt with hour := v, precision := .hour }) fun dt =>
    strictField s 13 ':' (fun v => { dt with minute := v, precision := .minute }) fun dt =>
    strictField s 16 ':' (fun v => { dt with second := v, precision := .second }) fun _ => none

def parseDateValue (s : List Byte) : Option DateTime :=
  match datetimeStripZone s with
  | none => none
  | some (buf, offset) =>
    match parseDateValueStrict buf with
    | none => none
    | some dt =>
      if offset ≠ 0 then
        match zoneTimegm dt with
        | none => none
        | some t => zoneCivilFromEpochUtc (t - offset) dt.precision
      else some dt

def parseTimeValue (s : List Byte) : Option DateTime :=
  if s.length < 2 ∨ allDigits s 0 2 = false then none
  else
    let dt : DateTime := ⟨0, 0, 0, parseIntSpan s 0 2, 0, 0, true, .hour⟩
    if s.length = 2 then sound dt
    else
      strictField s 2 ':' (fun v => { dt with minute := v, precision := .minute }) fun dt =>
      strictField s 5 ':' (fun v => { dt with second := v, precision := .second }) fun _ => none

/-! ## Layouts -/

def DT_MONTH_SHORT : List String := ["Jan", "Feb", "Mar", "Apr", "May", "Jun", "Jul", "Aug", "Sep", "Oct", "Nov", "Dec"]

def DT_MONTH_LONG : List String :=
  ["January", "February", "March", "April", "May", "June", "July", "August", "September", "October", "November",
    "December"]

def DT_DAY_SHORT : List String := ["Sun", "Mon", "Tue", "Wed", "Thu", "Fri", "Sat"]

def DT_DAY_LONG : List String := ["Sunday", "Monday", "Tuesday", "Wednesday", "Thursday", "Friday", "Saturday"]

def dtDayOfWeek (y m d : Int) : Int :=
  let y := if m < 3 then y - 1 else y
  (y + y.tdiv 4 - y.tdiv 100 + y.tdiv 400 + [0, 3, 2, 5, 0, 3, 5, 1, 4, 6, 2, 4].getD (m - 1).toNat 0 + d).tmod 7

def dtRun (l : List Byte) (c : Byte) (cap : Nat) : Nat := ((l.take cap).takeWhile (fun b => decide (b = c))).length

def lower (b : Byte) : Byte := if 65 ≤ b.val ∧ b.val ≤ 90 then byte (b.val + 32) else b

def startsWithName (t name : List Byte) (n : Nat) : Bool :=
  n ≤ t.length ∧ (t.take n).map lower = (name.take n).map lower

/-- `dt_name_index`: the name that the text starts with, and its length. -/
def dtNameIndex (t : List Byte) (names : List String) (exactLen : Nat) : Option (Nat × Nat) :=
  let length (name : String) : Nat := if 0 < exactLen then exactLen else (text name).length
  match names.findIdx? (fun name => length name ≤ (text name).length ∧ startsWithName t (text name) (length name)) with
  | none => none
  | some i => some (i, length (names.getD i ""))

def dtTakeDigits (t : List Byte) (wantMin wantMax : Nat) : Option (Int × Nat) :=
  let n := ((t.take wantMax).takeWhile isDigit).length
  if n < wantMin then none else some (parseIntSpan t 0 n, n)

def isMeridiem (l : List Byte) : Bool :=
  (isAt l 0 'a' ∨ isAt l 0 'A' ∨ isAt l 0 'p' ∨ isAt l 0 'P') ∧ (isAt l 1 'm' ∨ isAt l 1 'M')

def dtLayoutHasMeridiem : List Byte → Bool
  | [] => false
  | b :: l => isMeridiem (b :: l) || dtLayoutHasMeridiem l

structure LayoutState where
  dt : DateTime
  sawDate : Bool
  sawTime : Bool
  /-- Whether it was pm. -/
  meridiem : Option Bool
  namedDay : Option Nat

def Precision.atLeast (p q : Precision) : Precision := if p.rank < q.rank then q else p

def LayoutState.date (s : LayoutState) (dt : DateTime) (p : Precision) : LayoutState :=
  { s with dt := { dt with precision := s.dt.precision.atLeast p }, sawDate := true }

def LayoutState.time (s : LayoutState) (dt : DateTime) (p : Precision) : LayoutState :=
  { s with dt := { dt with precision := s.dt.precision.atLeast p }, sawTime := true }

def pivot (v : Int) : Int := if v ≤ 68 then 2000 + v else 1900 + v

def layoutToken (l t : List Byte) (s : LayoutState) : Option (Nat × Nat × LayoutState) :=
  let c := charAt l 0
  if c = byte 'Y'.toNat then
    let n := dtRun l c 4
    if n = 4 then (dtTakeDigits t 4 4).map (fun p => (n, p.2, s.date { s.dt with year := p.1 } .year))
    else if n = 2 then
      (dtTakeDigits t 2 2).map (fun p => (n, p.2, s.date { s.dt with year := pivot p.1 } .year))
    else none
  else if c = byte 'M'.toNat then
    let n := dtRun l c 4
    if n ≤ 2 then
      (dtTakeDigits t (if n = 2 then 2 else 1) 2).map (fun p => (n, p.2, s.date { s.dt with month := p.1 } .month))
    else
      (dtNameIndex t (if n = 3 then DT_MONTH_SHORT else DT_MONTH_LONG) (if n = 3 then 3 else 0)).map (fun p =>
        (n, p.2, s.date { s.dt with month := (p.1 : Int) + 1 } .month))
  else if c = byte 'D'.toNat then
    let n := dtRun l c 4
    if n ≤ 2 then
      (dtTakeDigits t (if n = 2 then 2 else 1) 2).map (fun p => (n, p.2, s.date { s.dt with day := p.1 } .day))
    else
      (dtNameIndex t (if n = 3 then DT_DAY_SHORT else DT_DAY_LONG) (if n = 3 then 3 else 0)).map (fun p =>
        (n, p.2, { s with namedDay := some p.1 }))
  else if c = byte 'h'.toNat then
    let n := dtRun l c 2
    (dtTakeDigits t (if n = 2 then 2 else 1) 2).map (fun p => (n, p.2, s.time { s.dt with hour := p.1 } .hour))
  else if c = byte 'm'.toNat then
    let n := dtRun l c 2
    (dtTakeDigits t (if n = 2 then 2 else 1) 2).map (fun p => (n, p.2, s.time { s.dt with minute := p.1 } .minute))
  else if c = byte 's'.toNat then
    let n := dtRun l c 2
    (dtTakeDigits t (if n = 2 then 2 else 1) 2).map (fun p => (n, p.2, s.time { s.dt with second := p.1 } .second))
  else if isMeridiem l then
    if isMeridiem t then some (2, 2, { s with meridiem := some (isAt t 0 'p' ∨ isAt t 0 'P') }) else none
  else none

def layoutLoop (l t : List Byte) (s : LayoutState) : Option LayoutState :=
  match l with
  | [] => if t = [] then some s else none
  | b :: l =>
    if isAlpha b then
      match layoutToken (b :: l) t s with
      | none => none
      | some (n, used, s) => layoutLoop (l.drop (n - 1)) (t.drop used) s
    else if charAt t 0 = b then layoutLoop l t.tail s
    else none
termination_by l.length
decreasing_by
  · simp only [List.length_drop, List.length_cons]
    omega
  · simp only [List.length_cons]
    omega

def applyMeridiem (layout : List Byte) (s : LayoutState) : Option DateTime :=
  if dtLayoutHasMeridiem layout then
    match s.meridiem with
    | none => none
    | some pm =>
      if s.dt.hour < 1 ∨ 12 < s.dt.hour then none
      else some { s.dt with hour := s.dt.hour % 12 + (if pm then 12 else 0) }
  else some s.dt

def datetimeParseLayout (s layout : List Byte) : Option DateTime := do
  let st ← layoutLoop layout s ⟨newYearOf 1, false, false, none, none⟩
  let dt ← applyMeridiem layout st
  let dt ← sound { dt with timeOnly := st.sawTime && !st.sawDate }
  match st.namedDay with
  | none => some dt
  | some named =>
    if dt.timeOnly = false ∧ dtDayOfWeek dt.year dt.month dt.day ≠ named then none else some dt

def datetimeParseLayoutList (s : List Byte) (layouts : List (List Byte)) : Option DateTime :=
  layouts.findSome? (datetimeParseLayout s)

example : datetimeParseLayout (text "7 Mar 2026 2:05 pm") (text "D MMM YYYY h:mm am") =
    some ⟨2026, 3, 7, 14, 5, 0, false, .minute⟩ := by decide +kernel

example : parseDateValue (text "2026-03-07T14:05:09+02:00") = some ⟨2026, 3, 7, 12, 5, 9, false, .second⟩ := by
  decide +kernel

/-! ## What makes a datetime

It is read from text, plainly or through layouts, converted, cut to a coarser precision, or has a duration added; each
is an `Op`, of a datetime or of none. -/

inductive Who where
  | date | time | datetime
  deriving DecidableEq

def modifierText (s : List Byte) : Who → Option DateTime
  | .date => parseDateValue s
  | .time => parseTimeValue s
  | .datetime => (parseDateValue s).map (fun dt => { dt with precision := .second })

def modifierLayouts (s : List Byte) (layouts : List (List Byte)) : Who → Option DateTime
  | .date => datetimeParseLayoutList s layouts
  | .time => (datetimeParseLayoutList s layouts).map (fun dt => { dt with timeOnly := true })
  | .datetime => (datetimeParseLayoutList s layouts).map (fun dt => { dt with precision := .second })

def datetimeApplyLens (dt : DateTime) (lens : Precision) : DateTime :=
  { dt with
    precision := lens
    second := if lens.rank < 6 then 0 else dt.second
    minute := if lens.rank < 5 then 0 else dt.minute
    hour := if lens.rank < 4 then 0 else dt.hour
    day := if dt.timeOnly = false ∧ lens.rank < 3 then 1 else dt.day
    month := if dt.timeOnly = false ∧ lens.rank < 2 then 1 else dt.month }

/-- `apply_datetime_lens_to_value` of a datetime. -/
def applyLens (dt : DateTime) (lens : Precision) : Option DateTime :=
  if dt.timeOnly ∧ lens.rank < 4 then none
  else if dt.precision.rank < lens.rank then none
  else some (datetimeApplyLens dt lens)

def parseDatetimeLikeValue (s : List Byte) : Option DateTime := (parseDateValue s).or (parseTimeValue s)

def datetimeConvertValue (dt : DateTime) : Who → Option DateTime
  | .time =>
    if dt.timeOnly = false ∧ dt.precision.rank < 4 then none
    else some { dt with timeOnly := true, year := 0, month := 0, day := 0 }
  | .date =>
    if dt.timeOnly then none else if dt.precision.rank < 3 then none else some (datetimeApplyLens dt .day)
  | .datetime =>
    if dt.timeOnly then none else if dt.precision.rank < 3 then none else some { dt with precision := .second }

inductive Op where
  | text (who : Who) (s : List Byte)
  | layouts (who : Who) (layouts : List (List Byte)) (s : List Byte)
  | convert (who : Who) (dt : DateTime)
  | lens (p : Precision) (dt : DateTime)
  | lensText (p : Precision) (s : List Byte)
  | plus (dt : DateTime) (d : Duration)
  | minus (dt : DateTime) (d : Duration)

def Op.run : Op → Option DateTime
  | .text who s => modifierText s who
  | .layouts who ls s => modifierLayouts s ls who
  | .convert who dt => datetimeConvertValue dt who
  | .lens p dt => applyLens dt p
  | .lensText p s => (parseDatetimeLikeValue s).bind (fun dt => applyLens dt p)
  | .plus dt d => Dates.plus dt d
  | .minus dt d => Dates.minus dt d

def Op.operand : Op → Option DateTime
  | .convert _ dt | .lens _ dt | .plus dt _ | .minus dt _ => some dt
  | _ => none

/-- The datetimes that operations make, each under a condition. -/
inductive Produced (P : Op → Prop) : DateTime → Prop
  | made {dt : DateTime} (op : Op) : (∀ o, op.operand = some o → Produced P o) → P op → op.run = some dt → Produced P dt

/-! ## `display` -/

def padded (w : Nat) (x : Int) : List Byte :=
  if x < 0 then byte '-'.toNat :: decimalPadded (w - 1) x.natAbs else decimalPadded w x.natAbs

/-- How a datetime is written. -/
def render (dt : DateTime) : List Byte :=
  if dt.timeOnly then
    match dt.precision with
    | .hour => padded 2 dt.hour
    | .minute => padded 2 dt.hour ++ text ":" ++ padded 2 dt.minute
    | _ => padded 2 dt.hour ++ text ":" ++ padded 2 dt.minute ++ text ":" ++ padded 2 dt.second
  else
    match dt.precision with
    | .year => padded 4 dt.year
    | .month => padded 4 dt.year ++ text "-" ++ padded 2 dt.month
    | .day => padded 4 dt.year ++ text "-" ++ padded 2 dt.month ++ text "-" ++ padded 2 dt.day
    | .hour =>
      padded 4 dt.year ++ text "-" ++ padded 2 dt.month ++ text "-" ++ padded 2 dt.day ++ text " " ++ padded 2 dt.hour
    | .minute =>
      padded 4 dt.year ++ text "-" ++ padded 2 dt.month ++ text "-" ++ padded 2 dt.day ++ text " " ++
        padded 2 dt.hour ++ text ":" ++ padded 2 dt.minute
    | .second =>
      padded 4 dt.year ++ text "-" ++ padded 2 dt.month ++ text "-" ++ padded 2 dt.day ++ text " " ++
        padded 2 dt.hour ++ text ":" ++ padded 2 dt.minute ++ text ":" ++ padded 2 dt.second

end Dates
end Gbasic
