import Gbasic.DateArith
import Gbasic.Bytes
import Gbasic.WorkingTime
/-!
# BusinessHours — business-hours arithmetic

One function walks through working windows from a clock that is put into one, the other sums what the days' windows have
of a span.  A datetime is the number of its seconds and whether it is to the second or a day, which decides between
equal instants; an exact duration that is answered is the number of its seconds.
-/
namespace Gbasic
namespace BusinessHours

open Dates (DateTime Duration durationTotals durationFromTotals)

structure Moment where
  count : Int
  precise : Bool
  deriving DecidableEq

/-- The `<` of datetimes. -/
def Moment.before (a b : Moment) : Bool :=
  decide (a.count < b.count) || decide (a.count = b.count) && !a.precise && b.precise

def Moment.of (dt : DateTime) : Moment := ⟨dt.count, decide (dt.precision = .second)⟩

def dayLens (d : Moment) : Moment := ⟨d.count / 86400 * 86400, false⟩

/-- A datetime and a number of seconds. -/
def Moment.plus (d : Moment) (seconds : Int) : Moment :=
  ⟨d.count + seconds, d.precise || decide (seconds % 86400 ≠ 0)⟩

theorem of_plus {dt r : DateTime} {d : Duration} {seconds : Int} (hdt : dt.InRange)
    (hd : durationFromTotals 0 seconds = some d) (hr : Dates.addDurationToDatetime dt d 1 = some r) :
    Moment.of r = (Moment.of dt).plus seconds := by
  have htotal := Dates.durationTotals_fromTotals hd
  have hmade := (Dates.add_iff hdt).1 hr
  rw [htotal, mul_zero, hdt.onMonths_zero, one_mul] at hmade
  obtain ⟨-, hin, hcount⟩ := hmade
  unfold Moment.of Moment.plus
  rw [hdt.precise, hin.precise, hcount]
  rfl

theorem of_difference {l r : DateTime} {d : Duration} (hl : l.InRange) (hr : r.InRange)
    (hd : Dates.difference l r = some (.ok d)) :
    (durationTotals d).2 = (Moment.of l).count - (Moment.of r).count := by
  obtain ⟨-, -, htotal⟩ := (Dates.difference_iff hl hr).1 hd
  exact congrArg Prod.snd (Dates.durationTotals_fromTotals htotal)

def dayNames : List (List Byte) :=
  [text "sunday", text "monday", text "tuesday", text "wednesday", text "thursday", text "friday", text "saturday"]

def dayname (d : Moment) : List Byte := dayNames.getD (d.count / 86400 % 7).toNat []

/-- Hours that open before they close, on the same day; each is the seconds that `_tod` makes of it. -/
structure Hours where
  opens : Int
  closes : Int
  opens_nonneg : 0 ≤ opens
  opens_lt : opens < closes
  closes_lt : closes < 86400

structure Cal where
  weekend : List (List Byte)
  holidays : List Moment
  hours : Option Hours

/-! ## Business days -/

def isBusinessDay (cal : Cal) (d : Moment) : Bool :=
  let dd := dayLens d
  if dayname dd ∈ cal.weekend then false
  else if dd ∈ cal.holidays then false
  else true

/-- The loop of `_step_business`, which gives up after so many days. -/
def stepLoop (cal : Cal) (direction : Int) : Nat → Moment → Except String Moment
  | 0, _ => .error "dates: no business day within 10 years; is the calendar empty?"
  | n + 1, dd =>
    let dd := dd.plus (86400 * direction)
    if isBusinessDay cal dd then .ok dd else stepLoop cal direction n dd

def stepBusiness (cal : Cal) (d : Moment) (direction : Int) : Except String Moment :=
  stepLoop cal direction 3700 (dayLens d)

def nextBusinessDay (cal : Cal) (d : Moment) : Except String Moment := stepBusiness cal d 1

def previousBusinessDay (cal : Cal) (d : Moment) : Except String Moment := stepBusiness cal d (0 - 1)

/-! ## Working windows -/

def atTime (d : Moment) (t : Int) : Moment := (dayLens d).plus t

def dayOpen (h : Hours) (d : Moment) : Moment := atTime d h.opens

def dayClose (h : Hours) (d : Moment) : Moment := atTime d h.closes

def needHours (cal : Cal) : Except String Hours :=
  match cal.hours with
  | some h => .ok h
  | none => .error "dates: business-hours arithmetic needs a calendar with hours: \x7b open:, close: \x7d"

def isBusinessTime (cal : Cal) (d : Moment) : Except String Bool :=
  (needHours cal).map (fun h =>
    if isBusinessDay cal d = false then false else !d.before (dayOpen h d) && d.before (dayClose h d))

def clockForward (cal : Cal) (h : Hours) (d : Moment) : Except String Moment :=
  if isBusinessDay cal d ∧ d.before (dayOpen h d) then .ok (dayOpen h d)
  else if isBusinessDay cal d ∧ d.before (dayClose h d) then .ok d
  else (nextBusinessDay cal d).map (dayOpen h)

def clockBackward (cal : Cal) (h : Hours) (d : Moment) : Except String Moment :=
  if isBusinessDay cal d ∧ (dayClose h d).before d then .ok (dayClose h d)
  else if isBusinessDay cal d ∧ (dayOpen h d).before d then .ok d
  else (previousBusinessDay cal d).map (dayClose h)

def exceeded : String := "dates: business-hours arithmetic exceeded 10000 working days"

/-- The loop of `add_business_hours` forwards. -/
def walkForward (cal : Cal) (h : Hours) : Nat → Moment → Int → Except String Moment
  | 0, _, _ => .error exceeded
  | n + 1, cur, remaining =>
    let room := (dayClose h cur).count - cur.count
    if remaining ≤ room then .ok (cur.plus remaining)
    else
      match nextBusinessDay cal cur with
      | .error e => .error e
      | .ok next => walkForward cal h n (dayOpen h next) (remaining - room)

/-- The loop of `add_business_hours` backwards. -/
def walkBackward (cal : Cal) (h : Hours) : Nat → Moment → Int → Except String Moment
  | 0, _, _ => .error exceeded
  | n + 1, cur, remaining =>
    let room := cur.count - (dayOpen h cur).count
    if remaining ≤ room then .ok (cur.plus (-remaining))
    else
      match previousBusinessDay cal cur with
      | .error e => .error e
      | .ok before => walkBackward cal h n (dayClose h before) (remaining - room)

def addBusinessHours (cal : Cal) (d : Moment) (dur : Duration) : Except String Moment :=
  match needHours cal with
  | .error e => .error e
  | .ok h =>
    if dur.years ≠ 0 ∨ dur.months ≠ 0 then
      .error "dates: business-hours arithmetic needs an exact duration; a month has no fixed length"
    else
      let remaining := (durationTotals dur).2
      if 0 ≤ remaining then
        match clockForward cal h d with
        | .error e => .error e
        | .ok cur => walkForward cal h 10000 cur remaining
      else
        match clockBackward cal h d with
        | .error e => .error e
        | .ok cur => walkBackward cal h 10000 cur (0 - remaining)

def dayPiece (cal : Cal) (h : Hours) (a b dd : Moment) : Int :=
  if isBusinessDay cal dd then
    let start := if (dayOpen h dd).before a then a else dayOpen h dd
    let stop := if b.before (dayClose h dd) then b else dayClose h dd
    if start.before stop then stop.count - start.count else 0
  else 0

/-- The loop of `business_hours_between`, which stops after so many days. -/
def sumDays (cal : Cal) (h : Hours) (a b last : Moment) : Nat → Moment → Int
  | 0, _ => 0
  | n + 1, dd =>
    if last.before dd then 0 else dayPiece cal h a b dd + sumDays cal h a b last n (dd.plus 86400)

def businessHoursBetween (cal : Cal) (a b : Moment) : Except String Int :=
  (needHours cal).map (fun h =>
    if b.before a then 0 - sumDays cal h b a (dayLens a) 10000 (dayLens b)
    else sumDays cal h a b (dayLens b) 10000 (dayLens a))

end BusinessHours
end Gbasic
