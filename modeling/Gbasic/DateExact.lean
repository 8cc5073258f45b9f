import Gbasic.DateCarry
/-!
# DateExact — what adding a duration comes to

A datetime in range is a number of seconds.  Where every sum is an `int`, a duration of exact parts moves it by its
total, one of years and months moves the month and holds the day to it (`add_iff`), and two datetimes are apart by the
difference of their numbers (`zoneTimegm_eq`).
-/
namespace Gbasic
namespace Dates

open Calendar (Date monthStart monthLength)
open Option (bind_eq_some_iff bind_eq_bind)

variable {a : Date} {dm : Int}

/-! ## Datetimes as numbers -/

def DateTime.dayNumber (dt : DateTime) : Int := monthStart dt.year dt.month.toNat + dt.day

/-- The seconds, from the day before 1 January of the year 1. -/
def DateTime.count (dt : DateTime) : Int := dt.dayNumber * 86400 + dt.hour * 3600 + dt.minute * 60 + dt.second

structure DateTime.Timed (dt : DateTime) : Prop where
  hour : 0 ≤ dt.hour ∧ dt.hour < 24
  minute : 0 ≤ dt.minute ∧ dt.minute < 60
  second : 0 ≤ dt.second ∧ dt.second < 60

structure DateTime.Dated (dt : DateTime) : Prop where
  isYear : IsInt dt.year
  month_pos : 1 ≤ dt.month
  month_le : dt.month ≤ 12
  day_pos : 1 ≤ dt.day
  day_le : dt.day ≤ monthLength dt.year dt.month.toNat

/-- A datetime of second precision with its fields in range. -/
structure DateTime.InRange (dt : DateTime) : Prop extends dt.Dated where
  timed : dt.Timed
  dated : dt.timeOnly = false
  precise : dt.precision = .second

def InYears (n : Int) : Prop := (newYear (-2147483648)).number ≤ n ∧ n ≤ (yearEnd 2147483647).number

instance (n : Int) : Decidable (InYears n) := inferInstanceAs (Decidable (_ ∧ _))

theorem inYears_iff : InYears a.number ↔ IsInt a.year := by
  constructor
  · rintro ⟨hlo, hhi⟩
    exact ⟨Date.year_le hlo, Date.year_le hhi⟩
  · rintro ⟨hlo, hhi⟩
    have hm := a.month_pos
    have hm12 := a.month_le
    constructor
    · rcases lt_or_eq_of_le (show 12 * (-2147483648 : Int) + 1 ≤ 12 * a.year + a.month by omega) with hlt | heq
      · exact (Date.number_lt (a := newYear _) hlt).le
      · have hy : a.year = -2147483648 := by omega
        have hmonth : a.month = 1 := by omega
        have hday := a.day_pos
        rw [number_newYear, Date.number, hy, hmonth]
        omega
    · rcases lt_or_eq_of_le (show 12 * a.year + a.month ≤ 12 * (2147483647 : Int) + 12 by omega) with hlt | heq
      · exact (Date.number_lt (b := yearEnd _) hlt).le
      · have hy : a.year = 2147483647 := by omega
        have hmonth : a.month = 12 := by omega
        have hday := a.day_le
        rw [hy, hmonth] at hday
        rw [Date.number, hy, hmonth]
        exact (Int.add_le_add_iff_left _).2 hday

namespace DateTime

variable {dt r : DateTime}

theorem Dated.at (h : dt.Dated) : At dt.dayNumber dt.year dt.month dt.day := ⟨h.isYear, h.month_pos, h.month_le, rfl⟩

theorem Dated.date (h : dt.Dated) :
    ∃ a : Date, a.number = dt.dayNumber ∧ IsInt a.year ∧ (dt.year, dt.month, dt.day) = onDate a :=
  h.at.date h.day_pos (by rw [daysInMonth_eq]; exact h.day_le)

/-- **A number of seconds is one datetime's.** -/
theorem InRange.count_inj (hdt : dt.InRange) (hr : r.InRange) (h : dt.count = r.count) : dt = r := by
  obtain ⟨a, ha, -, hda⟩ := hdt.date
  obtain ⟨b, hb, -, hdb⟩ := hr.date
  have ⟨h1, h2, h3⟩ := hdt.timed
  have ⟨h4, h5, h6⟩ := hr.timed
  unfold count at h
  have hday : dt.dayNumber = r.dayNumber := by omega
  have hsame : a = b := Date.number_inj (by rw [ha, hb, hday])
  rw [← hsame, ← hda] at hdb
  have hfields := Prod.mk.inj hdb
  have hrest := Prod.mk.inj hfields.2
  have hdated := hdt.dated.trans hr.dated.symm
  have hprecise := hdt.precise.trans hr.precise.symm
  have hh : dt.hour = r.hour := by omega
  have hmin : dt.minute = r.minute := by omega
  have hsec : dt.second = r.second := by omega
  cases dt
  cases r
  simp_all

end DateTime

/-! ## The exact parts -/

def DateTime.minutesHeld (dt : DateTime) : Int := dt.minute + dt.second / 60

def DateTime.hoursHeld (dt : DateTime) : Int := dt.hour + dt.minutesHeld / 60

def DateTime.daysHeld (dt : DateTime) : Int := dt.day + dt.hoursHeld / 24

def DateTime.dayHeld (dt : DateTime) : Int := monthStart dt.year dt.month.toNat + dt.daysHeld

structure DateTime.Held (dt : DateTime) : Prop where
  minutes : IsInt dt.minutesHeld
  hours : IsInt dt.hoursHeld
  days : IsInt dt.daysHeld
  years : InYears dt.dayHeld

/-- The fields with a date in place of theirs, and what is left of the time. -/
def DateTime.settled (dt : DateTime) (a : Date) : DateTime :=
  { dt with
    year := a.year
    month := a.month
    day := a.day
    hour := dt.hoursHeld % 24
    minute := dt.minutesHeld % 60
    second := dt.second % 60 }

theorem carry_some {low high l h : Int} {unit : Nat} [NeZero unit] (hhigh : IsInt high) :
    carry 0 unit low high = some (l, h) ↔ IsInt (high + low / unit) ∧ h = high + low / unit ∧ l = low % unit := by
  rw [carry_eq hhigh, sub_zero, zero_add]
  constructor
  · intro hc
    obtain ⟨x, hx, hp⟩ := Option.map_eq_some_iff.1 hc
    obtain ⟨hint, rfl⟩ := cint_eq_some.1 hx
    obtain ⟨rfl, rfl⟩ := Prod.mk.inj hp
    exact ⟨hint, rfl, rfl⟩
  · rintro ⟨hint, rfl, rfl⟩
    rw [cint, if_pos hint]
    rfl

/-- **What normalizing comes to.** -/
theorem normalize_iff {dt r : DateTime} (hy : IsInt dt.year) (hm : 1 ≤ dt.month) (hm12 : dt.month ≤ 12)
    (hday : IsInt dt.day) (hhour : IsInt dt.hour) (hminute : IsInt dt.minute) :
    normalizeDatetime dt = some r ↔ dt.Held ∧ ∃ a : Date, a.number = dt.dayHeld ∧ r = dt.settled a := by
  have hmonths : carry 1 12 dt.month dt.year = some (dt.month, dt.year) := by
    rw [carry_eq hy, Int.ediv_eq_zero_of_lt (by omega) (by omega), Int.emod_eq_of_lt (by omega) (by omega), add_zero,
      add_sub_cancel, cint, if_pos hy]
    rfl
  unfold normalizeDatetime
  constructor
  · intro h
    obtain ⟨⟨s, m⟩, hs, h⟩ := bind_eq_some_iff.1 h
    obtain ⟨hmi, rfl, rfl⟩ := (carry_some hminute).1 hs
    obtain ⟨⟨m, hr⟩, hs, h⟩ := bind_eq_some_iff.1 h
    obtain ⟨hho, rfl, rfl⟩ := (carry_some hhour).1 hs
    obtain ⟨⟨hr, dy⟩, hs, h⟩ := bind_eq_some_iff.1 h
    obtain ⟨hda, rfl, rfl⟩ := (carry_some hday).1 hs
    dsimp only at h
    rw [hmonths] at h
    dsimp only [bind_eq_bind, Option.bind_some] at h
    have hat : At dt.dayHeld dt.year dt.month dt.daysHeld := ⟨hy, hm, hm12, rfl⟩
    obtain ⟨q, hq, h⟩ := bind_eq_some_iff.1 h
    obtain ⟨p, hp, h⟩ := bind_eq_some_iff.1 h
    obtain ⟨a, ha, hya, rfl⟩ := (days_iff hat).1 (bind_eq_some_iff.2 ⟨q, hq, hp⟩)
    cases h
    exact ⟨⟨hmi, hho, hda, ha ▸ inYears_iff.2 hya⟩, a, ha, rfl⟩
  · rintro ⟨hheld, a, ha, rfl⟩
    have hat : At dt.dayHeld dt.year dt.month dt.daysHeld := ⟨hy, hm, hm12, rfl⟩
    have hya : IsInt a.year := inYears_iff.1 (ha ▸ hheld.years)
    obtain ⟨q, hq, hp⟩ := bind_eq_some_iff.1 ((days_iff hat).2 ⟨a, ha, hya, rfl⟩)
    refine bind_eq_some_iff.2 ⟨_, (carry_some hminute).2 ⟨hheld.minutes, rfl, rfl⟩, ?_⟩
    refine bind_eq_some_iff.2 ⟨_, (carry_some hhour).2 ⟨hheld.hours, rfl, rfl⟩, ?_⟩
    refine bind_eq_some_iff.2 ⟨_, (carry_some hday).2 ⟨hheld.days, rfl, rfl⟩, ?_⟩
    refine bind_eq_some_iff.2 ⟨_, hmonths, ?_⟩
    refine bind_eq_some_iff.2 ⟨_, hq, ?_⟩
    exact bind_eq_some_iff.2 ⟨_, hp, rfl⟩

/-- Every sum that brings a duration's parts to their fields is an `int`. -/
structure Parts (dt : DateTime) (d : Duration) (sign : Int) : Prop where
  weeks : IsInt (d.weeks * 7)
  weeksDays : IsInt (d.weeks * 7 + d.days)
  signedDays : IsInt (sign * (d.weeks * 7 + d.days))
  day : IsInt (dt.day + sign * (d.weeks * 7 + d.days))
  signedHours : IsInt (sign * d.hours)
  hour : IsInt (dt.hour + sign * d.hours)
  signedMinutes : IsInt (sign * d.minutes)
  minute : IsInt (dt.minute + sign * d.minutes)
  signedSeconds : IsInt (sign * d.seconds)
  second : IsInt (dt.second + sign * d.seconds)

def DateTime.summed (dt : DateTime) (d : Duration) (sign : Int) : DateTime :=
  { dt with
    day := dt.day + sign * (d.weeks * 7 + d.days)
    hour := dt.hour + sign * d.hours
    minute := dt.minute + sign * d.minutes
    second := dt.second + sign * d.seconds }

theorem addParts_iff {dt r : DateTime} {d : Duration} {sign : Int} :
    addParts dt d sign = some r ↔ Parts dt d sign ∧ r = dt.summed d sign := by
  unfold addParts
  simp only [bind_eq_bind, bind_eq_some_iff, cint_eq_some]
  constructor
  · rintro ⟨_, ⟨h1, rfl⟩, _, ⟨h2, rfl⟩, _, ⟨h3, rfl⟩, _, ⟨h4, rfl⟩, _, ⟨h5, rfl⟩, _, ⟨h6, rfl⟩, _, ⟨h7, rfl⟩,
      _, ⟨h8, rfl⟩, _, ⟨h9, rfl⟩, _, ⟨h10, rfl⟩, h⟩
    cases h
    exact ⟨⟨h1, h2, h3, h4, h5, h6, h7, h8, h9, h10⟩, rfl⟩
  · rintro ⟨h, rfl⟩
    exact ⟨_, ⟨h.weeks, rfl⟩, _, ⟨h.weeksDays, rfl⟩, _, ⟨h.signedDays, rfl⟩, _, ⟨h.day, rfl⟩, _, ⟨h.signedHours, rfl⟩,
      _, ⟨h.hour, rfl⟩, _, ⟨h.signedMinutes, rfl⟩, _, ⟨h.minute, rfl⟩, _, ⟨h.signedSeconds, rfl⟩, _, ⟨h.second, rfl⟩,
      rfl⟩

/-! ## The months -/

def DateTime.monthIndex (dt : DateTime) : Int := dt.year * 12 + (dt.month - 1)

def DateTime.onMonths (dt : DateTime) (dm : Int) : DateTime :=
  let year := (dt.monthIndex + dm) / 12
  let month := (dt.monthIndex + dm) % 12 + 1
  { dt with year, month, day := min dt.day (monthLength year month.toNat) }

theorem DateTime.onMonths_zero {dt : DateTime} (hm : 1 ≤ dt.month) (hm12 : dt.month ≤ 12)
    (hday : dt.day ≤ monthLength dt.year dt.month.toNat) : dt.onMonths 0 = dt := by
  have hyear : (dt.monthIndex + 0) / 12 = dt.year := by unfold monthIndex; omega
  have hmonth : (dt.monthIndex + 0) % 12 + 1 = dt.month := by unfold monthIndex; omega
  unfold onMonths
  simp only [hyear, hmonth, min_eq_left hday]

theorem floor_months (t : Int) : (if t.tmod 12 < 0 then t.tdiv 12 - 1 else t.tdiv 12) = t / 12 ∧
    (if t.tmod 12 < 0 then t.tmod 12 + 12 else t.tmod 12) = t % 12 := by
  have hsum := Int.mul_tdiv_add_tmod t 12
  have hlt := Int.tmod_lt_of_pos t (show (0 : Int) < 12 by decide)
  have hgt := Int.lt_tmod_of_pos t (show (0 : Int) < 12 by decide)
  constructor <;> split_ifs <;> omega

theorem addMonths_iff {dt c : DateTime} (hdt : dt.Dated) :
    addMonths dt dm = some c ↔ IsInt ((dt.monthIndex + dm) / 12) ∧ c = dt.onMonths dm := by
  have hm := hdt.month_pos
  have hm12 := hdt.month_le
  unfold addMonths
  split_ifs with hzero
  · subst hzero
    have hyear : (dt.monthIndex + 0) / 12 = dt.year := by unfold DateTime.monthIndex; omega
    rw [DateTime.onMonths_zero hm hm12 hdt.day_le, hyear]
    constructor
    · rintro h
      cases h
      exact ⟨hdt.isYear, rfl⟩
    · rintro ⟨-, rfl⟩
      rfl
  · obtain ⟨hdiv, hmod⟩ := floor_months (dt.year * 12 + (dt.month - 1) + dm)
    dsimp only
    rw [hdiv, hmod]
    have hday : ∀ y m : Int, (if daysInMonth y m < dt.day then daysInMonth y m else dt.day) =
        min dt.day (monthLength y m.toNat) := by
      intro y m
      rw [daysInMonth_eq]
      split_ifs <;> omega
    constructor
    · intro h
      split at h
      · cases h
      · rename_i year hyear
        obtain ⟨hint, rfl⟩ := cint_eq_some.1 hyear
        cases h
        exact ⟨hint, by rw [DateTime.onMonths, hday]; rfl⟩
    · rintro ⟨hint, rfl⟩
      rw [cint, if_pos (show IsInt ((dt.year * 12 + (dt.month - 1) + dm) / 12) from hint)]
      dsimp only
      rw [hday]
      rfl

/-! ## A duration added -/

/-- Every sum that adding a duration takes is an `int`: the year so many months on, the parts from there, what is
carried and the year that it comes to. -/
structure Sums (dt : DateTime) (d : Duration) (sign : Int) : Prop where
  months : IsInt ((dt.monthIndex + sign * (durationTotals d).1) / 12)
  parts : Parts (dt.onMonths (sign * (durationTotals d).1)) d sign
  held : ((dt.onMonths (sign * (durationTotals d).1)).summed d sign).Held

namespace DateTime

variable {dt r : DateTime} {d : Duration} {sign : Int}

theorem Dated.onMonths (h : dt.Dated) (hy : IsInt ((dt.monthIndex + dm) / 12)) : (dt.onMonths dm).Dated where
  isYear := hy
  month_pos := by
    show 1 ≤ (dt.monthIndex + dm) % 12 + 1
    omega
  month_le := by
    show (dt.monthIndex + dm) % 12 + 1 ≤ 12
    omega
  day_pos := by
    have hlen := Calendar.monthLength_bounds ((dt.monthIndex + dm) / 12) ((dt.monthIndex + dm) % 12 + 1).toNat
    have hday := h.day_pos
    exact le_min hday (by omega)
  day_le := min_le_right _ _

theorem InRange.onMonths (h : dt.InRange) (hy : IsInt ((dt.monthIndex + dm) / 12)) : (dt.onMonths dm).InRange :=
  ⟨h.toDated.onMonths hy, ⟨h.timed.hour, h.timed.minute, h.timed.second⟩, h.dated, h.precise⟩

theorem settled_count {dt : DateTime} (ha : a.number = dt.dayHeld) : (dt.settled a).count = dt.count := by
  have hday : (dt.settled a).dayNumber = dt.dayHeld := by
    rw [← ha]
    show monthStart a.year ((a.month : Nat) : Int).toNat + a.day = a.number
    rw [Int.toNat_natCast]
    rfl
  unfold count
  rw [hday]
  show dt.dayHeld * 86400 + dt.hoursHeld % 24 * 3600 + dt.minutesHeld % 60 * 60 + dt.second % 60 = _
  unfold dayHeld daysHeld hoursHeld minutesHeld dayNumber
  omega

theorem settled_dated {dt : DateTime} (hya : IsInt a.year) : (dt.settled a).Dated where
  isYear := hya
  month_pos := by
    have := a.month_pos
    show 1 ≤ ((a.month : Nat) : Int)
    omega
  month_le := by
    have := a.month_le
    show ((a.month : Nat) : Int) ≤ 12
    omega
  day_pos := a.day_pos
  day_le := by
    show a.day ≤ monthLength a.year ((a.month : Nat) : Int).toNat
    rw [Int.toNat_natCast]
    exact a.day_le

theorem settled_timed {dt : DateTime} : (dt.settled a).Timed where
  hour := by
    show 0 ≤ dt.hoursHeld % 24 ∧ dt.hoursHeld % 24 < 24
    omega
  minute := by
    show 0 ≤ dt.minutesHeld % 60 ∧ dt.minutesHeld % 60 < 60
    omega
  second := by
    show 0 ≤ dt.second % 60 ∧ dt.second % 60 < 60
    omega

theorem settled_inRange {dt : DateTime} (hya : IsInt a.year) (hdated : dt.timeOnly = false)
    (hprecise : dt.precision = .second) : (dt.settled a).InRange :=
  ⟨settled_dated hya, settled_timed, hdated, hprecise⟩

theorem summed_count : (dt.summed d sign).count = dt.count + sign * (durationTotals d).2 := by
  unfold count dayNumber summed durationTotals
  ring

end DateTime

theorem normalize_summed {c r : DateTime} {d : Duration} {sign : Int} (hc : c.Dated) (hparts : Parts c d sign) :
    normalizeDatetime (c.summed d sign) = some r ↔
      (c.summed d sign).Held ∧ ∃ a : Date, a.number = (c.summed d sign).dayHeld ∧ r = (c.summed d sign).settled a :=
  @normalize_iff (c.summed d sign) r hc.isYear hc.month_pos hc.month_le hparts.day hparts.hour hparts.minute

def DateTime.refined (dt : DateTime) (d : Duration) : DateTime :=
  if dt.precision.rank < 6 ∧ (d.hours ≠ 0 ∨ d.minutes ≠ 0 ∨ d.seconds ≠ 0) then { dt with precision := .second } else dt

theorem add_settled {dt r : DateTime} {d : Duration} {sign : Int} (hdt : dt.Dated) :
    addDurationToDatetime dt d sign = some r ↔ Sums dt d sign ∧
      ∃ a : Date, a.number = ((dt.onMonths (sign * (durationTotals d).1)).summed d sign).dayHeld ∧
        r = (((dt.onMonths (sign * (durationTotals d).1)).summed d sign).settled a).refined d := by
  unfold addDurationToDatetime
  simp only [bind_eq_bind, bind_eq_some_iff, addMonths_iff hdt, addParts_iff]
  constructor
  · rintro ⟨_, ⟨hy, rfl⟩, _, ⟨hparts, rfl⟩, x, hx, h⟩
    obtain ⟨hheld, a, ha, rfl⟩ := (normalize_summed (hdt.onMonths hy) hparts).1 hx
    cases h
    exact ⟨⟨hy, hparts, hheld⟩, a, ha, rfl⟩
  · rintro ⟨hsums, a, ha, rfl⟩
    exact ⟨_, ⟨hsums.months, rfl⟩, _, ⟨hsums.parts, rfl⟩, _,
      (normalize_summed (hdt.onMonths hsums.months) hsums.parts).2 ⟨hsums.held, a, ha, rfl⟩, rfl⟩

theorem DateTime.refined_precise {dt : DateTime} {d : Duration} (h : dt.precision = .second) : dt.refined d = dt := by
  unfold refined
  rw [if_neg (fun hlt => by rw [h] at hlt; exact absurd hlt.1 (by decide))]

/-- **What adding a duration comes to**: each sum is an `int`, and the datetime is the one the seconds come to. -/
theorem add_iff {dt r : DateTime} {d : Duration} {sign : Int} (hdt : dt.InRange) :
    addDurationToDatetime dt d sign = some r ↔ Sums dt d sign ∧ r.InRange ∧
      r.count = (dt.onMonths (sign * (durationTotals d).1)).count + sign * (durationTotals d).2 := by
  have hmade : ∀ {a : Date}, a.number = ((dt.onMonths (sign * (durationTotals d).1)).summed d sign).dayHeld →
      Sums dt d sign → (((dt.onMonths (sign * (durationTotals d).1)).summed d sign).settled a).InRange :=
    fun ha hsums => DateTime.settled_inRange (inYears_iff.1 (ha ▸ hsums.held.years)) hdt.dated hdt.precise
  rw [add_settled hdt.toDated]
  constructor
  · rintro ⟨hsums, a, ha, rfl⟩
    have hin := hmade ha hsums
    rw [DateTime.refined_precise hin.precise]
    exact ⟨hsums, hin, (DateTime.settled_count ha).trans DateTime.summed_count⟩
  · rintro ⟨hsums, hr, hcount⟩
    obtain ⟨a, ha⟩ := Date.exists_number ((dt.onMonths (sign * (durationTotals d).1)).summed d sign).dayHeld
    have hin := hmade ha hsums
    have hsame : ((dt.onMonths (sign * (durationTotals d).1)).summed d sign).settled a = r :=
      hin.count_inj hr (((DateTime.settled_count ha).trans DateTime.summed_count).trans hcount.symm)
    exact ⟨hsums, a, ha, by rw [DateTime.refined_precise hin.precise, hsame]⟩

end Dates
end Gbasic
