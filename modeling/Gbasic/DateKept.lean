import Gbasic.DateLayout
/-!
# DateKept — what each operation asks to hold nothing it does not show

Conversions and lenses ask nothing; an offset may not move the minutes of an hour, a layout may not read a time of day,
and a duration added to a year or a month has to come to the first of one.
-/
namespace Gbasic
namespace Dates

open Calendar (Date monthStart monthLength)

def TextKeeps (s : List Byte) : Prop :=
  ∀ buf offset, datetimeStripZone s = some (buf, offset) → buf.length = 13 → offset % 3600 = 0

def LayoutsKeep (layouts : List (List Byte)) (s : List Byte) : Prop :=
  ∀ layout, layouts.find? (fun layout => (datetimeParseLayout s layout).isSome) = some layout →
    namesDate layout = true ∨ namesTime layout = false

/-- What is asked of a duration added: the date is to the day at least, or the duration has a time of day, or the day it
comes to is the first of a month, or of a year. -/
def AddKeeps (dt : DateTime) (d : Duration) (sign : Int) : Prop :=
  dt.timeOnly = false ∧ (d.hours ≠ 0 ∨ d.minutes ≠ 0 ∨ d.seconds ≠ 0 ∨ ∀ a : Date,
    a.number = (dt.onMonths (sign * (durationTotals d).1)).dayNumber + sign * (d.weeks * 7 + d.days) →
      (dt.precision.rank < 3 → a.day = 1) ∧ (dt.precision.rank < 2 → a.month = 1))

/-- What an operation on datetimes that show what they hold asks to make another. -/
def Op.Keeps : Op → Prop
  | .text .date s => TextKeeps s
  | .layouts .time _ _ => False
  | .layouts _ ls s => LayoutsKeep ls s
  | .plus dt d => AddKeeps dt d 1
  | .minus dt d => AddKeeps dt d (-1)
  | _ => True

section
variable {dt r : DateTime} {s : List Byte}

/-! ## Layouts -/

structure LayoutRead (layout : List Byte) (r : DateTime) : Prop where
  cut : r.Cut
  ranged : r.Ranged
  only : r.timeOnly = (namesTime layout && !namesDate layout)
  month : 1 ≤ r.month

theorem applyMeridiem_some {layout : List Byte} {st : LayoutState} (hst : st.Held)
    (h : applyMeridiem layout st = some dt) : dt.Cut ∧ dt.timeOnly = false ∧ dt.year = st.dt.year ∧
      dt.month = st.dt.month ∧ dt.precision = st.dt.precision := by
  unfold applyMeridiem at h
  by_cases hlayout : dtLayoutHasMeridiem layout = true
  swap
  · rw [if_neg hlayout] at h
    cases h
    exact ⟨hst.cut, hst.dated, rfl, rfl, rfl⟩
  rw [if_pos hlayout] at h
  split at h
  · cases h
  rename_i pm hpm
  by_cases hbad : st.dt.hour < 1 ∨ 12 < st.dt.hour
  · rw [if_pos hbad] at h
    cases h
  rw [if_neg hbad] at h
  cases h
  -- an hour that is not midnight was read
  have hrank : ¬ st.dt.precision.rank < 4 := fun hlt => by
    have := hst.cut.hour hlt
    omega
  exact ⟨⟨hst.cut.second, hst.cut.minute, fun hlt => absurd hlt hrank, hst.cut.day, hst.cut.month⟩, hst.dated, rfl, rfl,
    rfl⟩

theorem datetimeParseLayout_some {layout : List Byte} (h : datetimeParseLayout s layout = some r) :
    LayoutRead layout r := by
  unfold datetimeParseLayout at h
  obtain ⟨st, hst, h⟩ := Option.bind_eq_some_iff.1 h
  obtain ⟨dt, hdt, h⟩ := Option.bind_eq_some_iff.1 h
  obtain ⟨x, hx, h⟩ := Option.bind_eq_some_iff.1 h
  have hxr : x = r := by
    split at h
    · exact Option.some.inj h
    · split_ifs at h
      exact Option.some.inj h
  subst hxr
  have hstart : LayoutState.Held ⟨newYearOf 1, false, false, none, none⟩ :=
    ⟨(newYearOf_ranged (by decide)).2, rfl, by decide, fun _ => rfl, fun h => by cases h⟩
  obtain ⟨hheld, hdate, htime⟩ := layoutLoop_some hst hstart
  rw [Bool.false_or] at hdate htime
  obtain ⟨hcut, honly, hyear, hmonth, hprec⟩ := applyMeridiem_some hheld hdt
  obtain ⟨rfl, hf⟩ := sound_some hx
  have hy := hheld.year
  have hcut' : DateTime.Cut { dt with timeOnly := st.sawTime && !st.sawDate } :=
    ⟨hcut.second, hcut.minute, hcut.hour, fun _ => hcut.day honly, fun _ => hcut.month honly⟩
  have hranged : DateTime.Ranged { dt with timeOnly := st.sawTime && !st.sawDate } := by
    refine ranged_of_sound hf hcut' ?_ (fun h => ?_)
    · show IsInt dt.year
      unfold IsInt
      omega
    · show 4 ≤ dt.precision.rank
      rw [hprec]
      exact hheld.clock (Bool.and_eq_true_iff.1 h).1
  refine ⟨hcut', hranged, by rw [hdate, htime], ?_⟩
  by_cases hsaw : st.sawDate = true
  · exact (hranged.dated (show (st.sawTime && !st.sawDate) = false by rw [hsaw]; simp)).month_pos
  · show 1 ≤ dt.month
    rw [hmonth, hheld.month (by simpa using hsaw)]

theorem datetimeParseLayoutList_some {layouts : List (List Byte)} (h : datetimeParseLayoutList s layouts = some r) :
    ∃ layout, layouts.find? (fun layout => (datetimeParseLayout s layout).isSome) = some layout ∧
      datetimeParseLayout s layout = some r := by
  unfold datetimeParseLayoutList at h
  induction layouts with
  | nil => cases h
  | cons l ls ih =>
    rw [List.findSome?_cons] at h
    rcases hl : datetimeParseLayout s l with _ | x <;> rw [hl] at h
    · obtain ⟨layout, hfind, hr⟩ := ih h
      exact ⟨layout, by rw [List.find?_cons, hl]; exact hfind, hr⟩
    · cases h
      exact ⟨l, by rw [List.find?_cons, hl]; rfl, hl⟩

theorem layouts_keep {layouts : List (List Byte)} (h : datetimeParseLayoutList s layouts = some r) :
    r.Cut ∧ r.Ranged ∧ 1 ≤ r.month ∧ (r.timeOnly = false ↔ LayoutsKeep layouts s) := by
  obtain ⟨layout, hfind, hr⟩ := datetimeParseLayoutList_some h
  have hread := datetimeParseLayout_some hr
  refine ⟨hread.cut, hread.ranged, hread.month, ?_⟩
  rw [hread.only]
  constructor
  · intro honly layout' hfind'
    rw [hfind] at hfind'
    cases hfind'
    rcases Bool.and_eq_false_iff.1 honly with htime | hdate
    · exact .inr htime
    · exact .inl (by simpa using hdate)
  · intro hkeep
    rcases hkeep layout hfind with hdate | htime
    · rw [hdate]
      simp
    · rw [htime]
      rfl

/-! ## Conversions and lenses -/

theorem dateless_lens (hr : dt.Ranged) (hd : dt.timeOnly = true → dt.year = 0 ∧ dt.month = 0 ∧ dt.day = 0)
    {lens : Precision} (hclock : dt.timeOnly = true → 4 ≤ lens.rank) :
    (datetimeApplyLens dt lens).Ranged ∧ (datetimeApplyLens dt lens).Shown := by
  have ⟨⟨h1, h2⟩, ⟨h3, h4⟩, ⟨h5, h6⟩⟩ := hr.timed
  refine ⟨⟨⟨?_, ?_, ?_⟩, fun ht => ?_, hclock⟩,
    ⟨fun h => if_pos h, fun h => if_pos h, fun h => if_pos h, fun ht h => if_pos ⟨ht, h⟩, fun ht h => if_pos ⟨ht, h⟩⟩,
    fun ht => ?_⟩
  · show 0 ≤ (if lens.rank < 4 then 0 else dt.hour) ∧ (if lens.rank < 4 then 0 else dt.hour) < 24
    split_ifs <;> omega
  · show 0 ≤ (if lens.rank < 5 then 0 else dt.minute) ∧ (if lens.rank < 5 then 0 else dt.minute) < 60
    split_ifs <;> omega
  · show 0 ≤ (if lens.rank < 6 then 0 else dt.second) ∧ (if lens.rank < 6 then 0 else dt.second) < 60
    split_ifs <;> omega
  · have hdated := hr.dated ht
    have hlen := fun m => Calendar.monthLength_bounds dt.year m
    have hm := hdated.month_pos
    have hm12 := hdated.month_le
    have hd := hdated.day_pos
    refine ⟨hdated.isYear, ?_, ?_, ?_, ?_⟩
    · show 1 ≤ (if dt.timeOnly = false ∧ lens.rank < 2 then 1 else dt.month)
      split_ifs <;> omega
    · show (if dt.timeOnly = false ∧ lens.rank < 2 then 1 else dt.month) ≤ 12
      split_ifs <;> omega
    · show 1 ≤ (if dt.timeOnly = false ∧ lens.rank < 3 then 1 else dt.day)
      split_ifs <;> omega
    · show (if dt.timeOnly = false ∧ lens.rank < 3 then 1 else dt.day) ≤
        monthLength dt.year (if dt.timeOnly = false ∧ lens.rank < 2 then 1 else dt.month).toNat
      by_cases h3 : lens.rank < 3
      · rw [if_pos ⟨ht, h3⟩]
        have := hlen (if dt.timeOnly = false ∧ lens.rank < 2 then 1 else dt.month).toNat
        omega
      · rw [if_neg (fun h => h3 h.2), if_neg (fun h => h3 (by omega))]
        exact hdated.day_le
  · obtain ⟨hy, hm, hday⟩ := hd ht
    have htrue : ¬ dt.timeOnly = false := by rw [show dt.timeOnly = true from ht]; decide
    refine ⟨hy, ?_, ?_⟩
    · show (if dt.timeOnly = false ∧ lens.rank < 2 then 1 else dt.month) = 0
      rw [if_neg (fun h => htrue h.1), hm]
    · show (if dt.timeOnly = false ∧ lens.rank < 3 then 1 else dt.day) = 0
      rw [if_neg (fun h => htrue h.1), hday]

theorem applyLens_some {lens : Precision} (hr : dt.Ranged)
    (hd : dt.timeOnly = true → dt.year = 0 ∧ dt.month = 0 ∧ dt.day = 0) (h : applyLens dt lens = some r) :
    r.Ranged ∧ r.Shown := by
  unfold applyLens at h
  split_ifs at h with hclock
  cases h
  exact dateless_lens hr hd (fun ht => by have := not_and.1 hclock ht; omega)

theorem second_shown (hr : dt.Ranged) (ht : dt.timeOnly = false) :
    DateTime.Ranged { dt with precision := .second } ∧ DateTime.Shown { dt with precision := .second } :=
  ⟨⟨⟨hr.timed.hour, hr.timed.minute, hr.timed.second⟩, fun _ => ⟨(hr.dated ht).isYear, (hr.dated ht).month_pos,
      (hr.dated ht).month_le, (hr.dated ht).day_pos, (hr.dated ht).day_le⟩, fun _ => (show 4 ≤ 6 by decide)⟩,
    cut_of .second (fun h => absurd h (by decide)) (fun h => absurd h (by decide)) (fun h => absurd h (by decide))
      (fun _ h => absurd h (by decide)) (fun _ h => absurd h (by decide)),
    fun h => absurd (ht.symm.trans h) (by decide)⟩

theorem datetimeConvertValue_some {who : Who} (hr : dt.Ranged) (hs : dt.Shown)
    (h : datetimeConvertValue dt who = some r) : r.Ranged ∧ r.Shown := by
  cases who with
  | date =>
    rw [datetimeConvertValue] at h
    split_ifs at h with ht
    cases h
    exact dateless_lens hr hs.dateless (fun h => absurd h ht)
  | time =>
    rw [datetimeConvertValue] at h
    split_ifs at h with hrank
    cases h
    refine ⟨⟨⟨hr.timed.hour, hr.timed.minute, hr.timed.second⟩, (fun h => by cases h), fun _ => ?_⟩,
      ⟨hs.second, hs.minute, hs.hour, (fun h => by cases h), (fun h => by cases h)⟩, fun _ => ⟨rfl, rfl, rfl⟩⟩
    by_cases ht : dt.timeOnly = true
    · exact hr.clock ht
    · have := not_and.1 hrank (by simpa using ht)
      show 4 ≤ dt.precision.rank
      omega
  | datetime =>
    rw [datetimeConvertValue] at h
    split_ifs at h with ht
    cases h
    exact second_shown hr (by simpa using ht)

/-! ## Sums -/

theorem normalize_month (hy : IsInt dt.year) (h : normalizeDatetime dt = some r) :
    1 ≤ r.month ∧ r.timeOnly = dt.timeOnly := by
  unfold normalizeDatetime at h
  obtain ⟨⟨sec, mi⟩, -, h⟩ := Option.bind_eq_some_iff.1 h
  obtain ⟨⟨mi, hr⟩, -, h⟩ := Option.bind_eq_some_iff.1 h
  obtain ⟨⟨hr, day⟩, -, h⟩ := Option.bind_eq_some_iff.1 h
  obtain ⟨⟨month, year⟩, hmonths, h⟩ := Option.bind_eq_some_iff.1 h
  obtain ⟨p, hup, h⟩ := Option.bind_eq_some_iff.1 h
  obtain ⟨q, hdown, h⟩ := Option.bind_eq_some_iff.1 h
  cases h
  rw [carry_eq hy] at hmonths
  obtain ⟨y, hyear, hpair⟩ := Option.map_eq_some_iff.1 hmonths
  obtain ⟨rfl, rfl⟩ := Prod.mk.inj hpair
  obtain ⟨hint, rfl⟩ := cint_eq_some.1 hyear
  have hat : At (monthStart (dt.year + (dt.month - 1) / (12 : Nat)) (1 + (dt.month - 1) % (12 : Nat)).toNat + day)
      (dt.year + (dt.month - 1) / (12 : Nat)) (1 + (dt.month - 1) % (12 : Nat)) day := ⟨hint, by omega, by omega, rfl⟩
  obtain ⟨hat', hle⟩ := daysUp_at hat hup
  obtain ⟨a, -, -, rfl⟩ := daysDown_date hat' hle hdown
  have hm := a.month_pos
  refine ⟨?_, rfl⟩
  show 1 ≤ (a.month : Int)
  omega

theorem add_timeOnly {d : Duration} {sign : Int} (hy : dt.year = 0) (h : addDurationToDatetime dt d sign = some r) :
    1 ≤ r.month ∧ r.timeOnly = dt.timeOnly := by
  unfold addDurationToDatetime at h
  simp only [Option.bind_eq_bind, Option.bind_eq_some_iff, addParts_iff] at h
  obtain ⟨c, hc, _, ⟨-, rfl⟩, x, hx, h⟩ := h
  have hcyear : IsInt c.year ∧ c.timeOnly = dt.timeOnly := by
    unfold addMonths at hc
    split_ifs at hc with hzero
    · cases hc
      exact ⟨by rw [hy]; decide, rfl⟩
    · dsimp only at hc
      split at hc
      · cases hc
      · rename_i year hyear
        obtain ⟨hint, rfl⟩ := cint_eq_some.1 hyear
        cases hc
        exact ⟨hint, rfl⟩
  obtain ⟨hmonth, honly⟩ := @normalize_month (c.summed d sign) x hcyear.1 hx
  have honly' : x.timeOnly = dt.timeOnly := honly.trans hcyear.2
  cases h
  split_ifs
  · exact ⟨hmonth, honly'⟩
  · exact ⟨hmonth, honly'⟩

namespace DateTime

theorem refined_fields (dt : DateTime) (d : Duration) : (dt.refined d).timeOnly = dt.timeOnly ∧
    (dt.refined d).year = dt.year ∧ (dt.refined d).month = dt.month ∧ (dt.refined d).day = dt.day ∧
    (dt.refined d).hour = dt.hour ∧ (dt.refined d).minute = dt.minute ∧ (dt.refined d).second = dt.second := by
  unfold refined
  split_ifs
  · exact ⟨rfl, rfl, rfl, rfl, rfl, rfl, rfl⟩
  · exact ⟨rfl, rfl, rfl, rfl, rfl, rfl, rfl⟩

/-- A duration of days and coarser parts leaves the time of day. -/
theorem settled_days {c : DateTime} {d : Duration} {sign : Int} (hc : c.Timed)
    (hparts : d.hours = 0 ∧ d.minutes = 0 ∧ d.seconds = 0) (a : Date) :
    (c.summed d sign).dayHeld = c.dayNumber + sign * (d.weeks * 7 + d.days) ∧
      ((c.summed d sign).settled a).hour = c.hour ∧ ((c.summed d sign).settled a).minute = c.minute ∧
      ((c.summed d sign).settled a).second = c.second := by
  obtain ⟨hh, hm, hs⟩ := hparts
  have ⟨h1, h2, h3⟩ := hc
  have hsecond : (c.summed d sign).second = c.second := by
    show c.second + sign * d.seconds = c.second
    rw [hs, mul_zero, add_zero]
  have hminutes : (c.summed d sign).minutesHeld = c.minute := by
    unfold minutesHeld
    rw [hsecond]
    show c.minute + sign * d.minutes + c.second / 60 = c.minute
    rw [hm, mul_zero]
    omega
  have hhours : (c.summed d sign).hoursHeld = c.hour := by
    unfold hoursHeld
    rw [hminutes]
    show c.hour + sign * d.hours + c.minute / 60 = c.hour
    rw [hh, mul_zero]
    omega
  refine ⟨?_, ?_, ?_, ?_⟩
  · unfold dayHeld daysHeld dayNumber
    rw [hhours]
    show monthStart c.year c.month.toNat + (c.day + sign * (d.weeks * 7 + d.days) + c.hour / 24) = _
    rw [Int.ediv_eq_zero_of_lt h1.1 h1.2]
    ring
  · show (c.summed d sign).hoursHeld % 24 = c.hour
    rw [hhours]
    omega
  · show (c.summed d sign).minutesHeld % 60 = c.minute
    rw [hminutes]
    omega
  · show (c.summed d sign).second % 60 = c.second
    rw [hsecond]
    omega

end DateTime

theorem refined_second {x : DateTime} {d : Duration} (hparts : d.hours ≠ 0 ∨ d.minutes ≠ 0 ∨ d.seconds ≠ 0) :
    (x.refined d).precision.rank = 6 := by
  unfold DateTime.refined
  split_ifs with hif
  · rfl
  · have hlt : ¬ x.precision.rank < 6 := fun hlt => hif ⟨hlt, hparts⟩
    have hle : x.precision.rank ≤ 6 := by cases x.precision <;> decide
    omega

/-- **A sum shows what it holds** where it is asked to, and only there. -/
theorem add_shown {d : Duration} {sign : Int} (hr : dt.Ranged) (hs : dt.Shown)
    (h : addDurationToDatetime dt d sign = some r) : (r.Shown ↔ AddKeeps dt d sign) ∧
    (dt.timeOnly = false → r.Ranged) := by
  rcases ht : dt.timeOnly with _ | _
  swap
  · obtain ⟨hmonth, honly⟩ := add_timeOnly (hs.dateless ht).1 h
    refine ⟨iff_of_false (fun hshown => ?_) (fun hkeep => absurd (ht.symm.trans hkeep.1) (by decide)),
      fun h => by cases h⟩
    have hdateless := hshown.dateless (honly.trans ht)
    omega
  obtain ⟨hsums, a, ha, rfl⟩ := (add_settled (hr.dated ht)).1 h
  unfold AddKeeps
  have hsame : ∀ c, c = dt.onMonths (sign * (durationTotals d).1) →
      c.hour = dt.hour ∧ c.minute = dt.minute ∧ c.second = dt.second ∧ c.timeOnly = false ∧
      c.precision = dt.precision := by
    rintro c rfl
    exact ⟨rfl, rfl, rfl, ht, rfl⟩
  have hheld := hsums.held
  generalize dt.onMonths (sign * (durationTotals d).1) = c at *
  obtain ⟨hhour, hminute, hsecond, honly, hprec⟩ := hsame c rfl
  have hdated : ((c.summed d sign).settled a).Dated := DateTime.settled_dated (inYears_iff.1 (ha ▸ hheld.years))
  have htimed : ((c.summed d sign).settled a).Timed := DateTime.settled_timed
  have hctimed : c.Timed := ⟨hhour ▸ hr.timed.hour, hminute ▸ hr.timed.minute, hsecond ▸ hr.timed.second⟩
  obtain ⟨eonly, eyear, emonth, eday, ehour, eminute, esecond⟩ := ((c.summed d sign).settled a).refined_fields d
  have honly' : (((c.summed d sign).settled a).refined d).timeOnly = false := eonly.trans honly
  refine ⟨?_, fun _ => ⟨⟨ehour ▸ htimed.hour, eminute ▸ htimed.minute, esecond ▸ htimed.second⟩, fun _ =>
    ⟨eyear ▸ hdated.isYear, emonth ▸ hdated.month_pos, emonth ▸ hdated.month_le, eday ▸ hdated.day_pos,
      by rw [eday, eyear, emonth]; exact hdated.day_le⟩, fun h => absurd (honly'.symm.trans h) (by decide)⟩⟩
  have hshown : (((c.summed d sign).settled a).refined d).Shown ↔ (((c.summed d sign).settled a).refined d).Cut :=
    ⟨fun h => h.toCut, fun h => ⟨h, fun h => absurd (honly'.symm.trans h) (by decide)⟩⟩
  rw [hshown]
  by_cases hparts : d.hours ≠ 0 ∨ d.minutes ≠ 0 ∨ d.seconds ≠ 0
  · have hrank := @refined_second ((c.summed d sign).settled a) d hparts
    refine iff_of_true ⟨?_, ?_, ?_, ?_, ?_⟩ ⟨ht, ?_⟩
    · omega
    · omega
    · omega
    · omega
    · omega
    · rcases hparts with hparts | hparts | hparts
      · exact .inl hparts
      · exact .inr (.inl hparts)
      · exact .inr (.inr (.inl hparts))
  have hnone : d.hours = 0 ∧ d.minutes = 0 ∧ d.seconds = 0 := by
    obtain ⟨h1, h⟩ := not_or.1 hparts
    obtain ⟨h2, h3⟩ := not_or.1 h
    exact ⟨not_not.1 h1, not_not.1 h2, not_not.1 h3⟩
  obtain ⟨hday, xhour, xminute, xsecond⟩ := @DateTime.settled_days c d sign hctimed hnone a
  have hrefined : ((c.summed d sign).settled a).refined d = (c.summed d sign).settled a :=
    if_neg (fun h => hparts h.2)
  have hrank : ((c.summed d sign).settled a).precision.rank = dt.precision.rank := congrArg Precision.rank hprec
  rw [hrefined, ← hday, ← ha]
  constructor
  · refine fun hcut => ⟨ht, .inr (.inr (.inr ?_))⟩
    intro b hb
    obtain rfl := Date.number_inj hb
    refine ⟨fun h3 => hcut.day honly (by omega), fun h2 => ?_⟩
    have hmonth : ((b.month : Nat) : Int) = 1 := hcut.month honly (by omega)
    exact_mod_cast hmonth
  · rintro ⟨-, hdur⟩
    have hfirst : (dt.precision.rank < 3 → a.day = 1) ∧ (dt.precision.rank < 2 → a.month = 1) := by
      rcases hdur with h | h | h | h
      · exact absurd hnone.1 h
      · exact absurd hnone.2.1 h
      · exact absurd hnone.2.2 h
      · exact h a rfl
    refine ⟨fun h => ?_, fun h => ?_, fun h => ?_, fun _ h => ?_, fun _ h => ?_⟩
    · rw [xsecond, hsecond]
      exact hs.second (by omega)
    · rw [xminute, hminute]
      exact hs.minute (by omega)
    · rw [xhour, hhour]
      exact hs.hour (by omega)
    · exact hfirst.1 (by omega)
    · show ((a.month : Nat) : Int) = 1
      exact_mod_cast hfirst.2 (by omega)

end

end Dates
end Gbasic
