import Gbasic.Calendar
/-!
# DateTime — datetimes and durations

A datetime's six fields are C's `int`s, and so are a duration's seven.  What leaves the type is `none` here: a sum that
does is undefined, a conversion that does has not the number's value.
-/
namespace Gbasic
namespace Dates

/-! ## The values -/

inductive Precision where
  | year | month | day | hour | minute | second
  deriving DecidableEq, Repr

def Precision.rank : Precision → Nat
  | .year => 1
  | .month => 2
  | .day => 3
  | .hour => 4
  | .minute => 5
  | .second => 6

structure DateTime where
  year : Int
  month : Int
  day : Int
  hour : Int
  minute : Int
  second : Int
  timeOnly : Bool
  precision : Precision
  deriving DecidableEq, Repr

structure Duration where
  years : Int
  months : Int
  weeks : Int
  days : Int
  hours : Int
  minutes : Int
  seconds : Int
  deriving DecidableEq, Repr

def IsInt (x : Int) : Prop := -2147483648 ≤ x ∧ x ≤ 2147483647

instance (x : Int) : Decidable (IsInt x) := inferInstanceAs (Decidable (_ ∧ _))

def cint (x : Int) : Option Int := if IsInt x then some x else none

theorem cint_eq_some {x y : Int} : cint x = some y ↔ IsInt x ∧ x = y := by
  unfold cint
  split_ifs with h <;> simp [h]

/-! ## The calendar -/

def isLeapYear (year : Int) : Bool := year.tmod 4 = 0 ∧ year.tmod 100 ≠ 0 ∨ year.tmod 400 = 0

def daysInMonth (year month : Int) : Int :=
  if month = 2 ∧ isLeapYear year then 29 else [31, 28, 31, 30, 31, 30, 31, 31, 30, 31, 30, 31].getD (month - 1).toNat 31

theorem isLeapYear_iff (year : Int) : isLeapYear year = true ↔ Calendar.Leap year := by
  have htmod : ∀ n : Int, year.tmod n = 0 ↔ year % n = 0 := fun n => by
    rw [← Int.dvd_iff_tmod_eq_zero, ← Int.dvd_iff_emod_eq_zero]
  unfold isLeapYear Calendar.Leap
  rw [decide_eq_true_eq, htmod, htmod, Ne, htmod]

theorem daysInMonth_eq (year month : Int) : daysInMonth year month = Calendar.monthLength year month.toNat := by
  unfold daysInMonth Calendar.monthLength
  by_cases hfeb : month = 2
  · subst hfeb
    by_cases hleap : Calendar.Leap year
    · rw [if_pos ⟨rfl, (isLeapYear_iff year).2 hleap⟩, if_pos (show Int.toNat 2 = 2 from rfl), if_pos hleap]
    · rw [if_neg (fun h => hleap ((isLeapYear_iff year).1 h.2)), if_pos (show Int.toNat 2 = 2 from rfl), if_neg hleap]
      rfl
  · rw [if_neg (fun h => hfeb h.1)]
    by_cases hm : 1 ≤ month ∧ month ≤ 12
    · obtain ⟨hpos, hle⟩ := hm
      interval_cases month <;> first | rfl | exact absurd rfl hfeb
    · rw [if_neg (by omega), if_neg (by omega)]
      by_cases hpos : 1 ≤ month
      · rw [List.getD_eq_getElem?_getD, List.getElem?_eq_none (by simp only [List.length_cons, List.length_nil]; omega)]
        rfl
      · rw [show (month - 1).toNat = 0 by omega]
        rfl

theorem daysInMonth_bounds (year month : Int) : 28 ≤ daysInMonth year month ∧ daysInMonth year month ≤ 31 := by
  rw [daysInMonth_eq]
  exact Calendar.monthLength_bounds ..

/-! ## `normalize_datetime` -/

def carryUp (base : Int) (unit : Nat) [NeZero unit] (low high : Int) : Option (Int × Int) :=
  if base + unit ≤ low then
    match cint (high + 1) with
    | none => none
    | some high => carryUp base unit (low - unit) high
  else some (low, high)
termination_by (low - base).toNat
decreasing_by
  have := NeZero.pos unit
  omega

def carryDown (base : Int) (unit : Nat) [NeZero unit] (low high : Int) : Option (Int × Int) :=
  if low < base then
    match cint (high - 1) with
    | none => none
    | some high => carryDown base unit (low + unit) high
  else some (low, high)
termination_by (base - low).toNat
decreasing_by
  have := NeZero.pos unit
  omega

def carry (base : Int) (unit : Nat) [NeZero unit] (low high : Int) : Option (Int × Int) :=
  match carryUp base unit low high with
  | none => none
  | some (low, high) => carryDown base unit low high

def daysUp (year month day : Int) : Option (Int × Int × Int) :=
  if daysInMonth year month < day then
    if 12 < month + 1 then
      match cint (year + 1) with
      | none => none
      | some next => daysUp next 1 (day - daysInMonth year month)
    else daysUp year (month + 1) (day - daysInMonth year month)
  else some (year, month, day)
termination_by day.toNat
decreasing_by
  all_goals
    have := daysInMonth_bounds year month
    omega

def daysDown (year month day : Int) : Option (Int × Int × Int) :=
  if day < 1 then
    if month - 1 < 1 then
      match cint (year - 1) with
      | none => none
      | some before => daysDown before 12 (day + daysInMonth before 12)
    else daysDown year (month - 1) (day + daysInMonth year (month - 1))
  else some (year, month, day)
termination_by (1 - day).toNat
decreasing_by
  · have := daysInMonth_bounds before 12
    omega
  · have := daysInMonth_bounds year (month - 1)
    omega

def normalizeDatetime (dt : DateTime) : Option DateTime := do
  let (second, minute) ← carry 0 60 dt.second dt.minute
  let (minute, hour) ← carry 0 60 minute dt.hour
  let (hour, day) ← carry 0 24 hour dt.day
  let (month, year) ← carry 1 12 dt.month dt.year
  let (year, month, day) ← daysUp year month day
  let (year, month, day) ← daysDown year month day
  some { dt with year, month, day, hour, minute, second }

/-! ## Durations -/

/-- `duration_totals`: the months and the seconds, in C's `long long`, which holds them. -/
def durationTotals (d : Duration) : Int × Int :=
  (d.years * 12 + d.months, (d.weeks * 7 + d.days) * 86400 + d.hours * 3600 + d.minutes * 60 + d.seconds)

def durationFromTotals (months seconds : Int) : Option Duration := do
  let years ← cint (months.tdiv 12)
  let days ← cint (seconds.tdiv 86400)
  let r := seconds.tmod 86400
  let s := r.tmod 3600
  some ⟨years, months.tmod 12, 0, days, r.tdiv 3600, s.tdiv 60, s.tmod 60⟩

def addMonths (dt : DateTime) (dm : Int) : Option DateTime :=
  if dm = 0 then some dt
  else
    let total := dt.year * 12 + (dt.month - 1) + dm
    let y := if total.tmod 12 < 0 then total.tdiv 12 - 1 else total.tdiv 12
    let m := if total.tmod 12 < 0 then total.tmod 12 + 12 else total.tmod 12
    match cint y with
    | none => none
    | some year =>
      let dim := daysInMonth year (m + 1)
      some { dt with year, month := m + 1, day := if dim < dt.day then dim else dt.day }

def addParts (dt : DateTime) (d : Duration) (sign : Int) : Option DateTime := do
  let weeks ← cint (d.weeks * 7)
  let days ← cint (weeks + d.days)
  let days ← cint (sign * days)
  let day ← cint (dt.day + days)
  let hours ← cint (sign * d.hours)
  let hour ← cint (dt.hour + hours)
  let minutes ← cint (sign * d.minutes)
  let minute ← cint (dt.minute + minutes)
  let seconds ← cint (sign * d.seconds)
  let second ← cint (dt.second + seconds)
  some { dt with day, hour, minute, second }

def addDurationToDatetime (dt : DateTime) (d : Duration) (sign : Int) : Option DateTime := do
  let dt ← addMonths dt (sign * (durationTotals d).1)
  let dt ← addParts dt d sign
  let dt ← normalizeDatetime dt
  some (if dt.precision.rank < 6 ∧ (d.hours ≠ 0 ∨ d.minutes ≠ 0 ∨ d.seconds ≠ 0) then
    { dt with precision := .second } else dt)

/-! ## Seconds since the epoch -/

def floorDiv (a b : Int) : Int :=
  if a.tmod b ≠ 0 ∧ decide (a < 0) ≠ decide (b < 0) then a.tdiv b - 1 else a.tdiv b

def daysFromCivil (y m d : Int) : Int :=
  let y := if m ≤ 2 then y - 1 else y
  let era := floorDiv y 400
  let yoe := y - era * 400
  let doy := (153 * (if 2 < m then m - 3 else m + 9) + 2) / 5 + d - 1
  let doe := yoe * 365 + yoe / 4 - yoe / 100 + doy
  era * 146097 + doe - 719468

structure Tm where
  year : Int
  mon : Int
  mday : Int
  hour : Int
  min : Int
  sec : Int

def zoneFillTm (dt : DateTime) : Option Tm := do
  let year ← cint (dt.year - 1900)
  some ⟨year, (if 1 ≤ dt.month then dt.month else 1) - 1, if 1 ≤ dt.day then dt.day else 1, dt.hour, dt.minute,
  dt.second⟩

def gbTimegm (tm : Tm) : Int :=
  let y := tm.year + 1900 + floorDiv tm.mon 12
  let mon := tm.mon - floorDiv tm.mon 12 * 12
  let days := daysFromCivil y (mon + 1) 1 + tm.mday - 1
  days * 86400 + tm.hour * 3600 + tm.min * 60 + tm.sec

def zoneTimegm (dt : DateTime) : Option Int := (zoneFillTm dt).map gbTimegm

/-! ## `eval_binary` on datetimes and durations -/

/-- A datetime plus a duration, in either order. -/
def plus (dt : DateTime) (d : Duration) : Option DateTime := addDurationToDatetime dt d 1

def minus (dt : DateTime) (d : Duration) : Option DateTime := addDurationToDatetime dt d (-1)

def difference (left right : DateTime) : Option (Except String Duration) :=
  if left.timeOnly ∨ right.timeOnly then some (.error "a time-only value has no epoch")
  else do
    let ea ← zoneTimegm left
    let eb ← zoneTimegm right
    let d ← durationFromTotals 0 (ea - eb)
    some (.ok d)

end Dates
end Gbasic
