import Gbasic.DateExact
/-!
# DateArith — datetimes and durations together

A duration added is taken off again, and two datetimes are apart by what was added, where no sum leaves its type; the
sums that must not are of a datetime and a duration (`DateFits`).
-/
namespace Gbasic
namespace Dates

open Calendar (Date monthStart monthLength)

/-! ## Seconds since the epoch -/

theorem floorDiv_eq {a b : Int} (hb : 0 < b) : floorDiv a b = a / b := by
  unfold floorDiv
  rw [Int.tdiv_eq_ediv, Int.sign_eq_one_of_pos hb]
  have hdvd : a.tmod b = 0 ↔ b ∣ a := Int.dvd_iff_tmod_eq_zero.symm
  by_cases hd : b ∣ a
  · rw [if_neg (fun h => h.1 (hdvd.2 hd)), if_pos (.inr hd), add_zero]
  · by_cases ha : a < 0
    · rw [if_pos ⟨fun h => hd (hdvd.1 h), by simp [ha, not_lt.2 hb.le]⟩, if_neg (by omega), add_sub_cancel_right]
    · rw [if_neg (fun h => h.2 (by simp [ha, not_lt.2 hb.le])), if_pos (.inl (not_lt.1 ha)), add_zero]

theorem firstMonths_line (y : Int) {k : Nat} (hk : k ≤ 9) :
    Calendar.firstMonths y (k + 2) = 31 + monthLength y 2 + (153 * k + 2) / 5 := by
  have hnext : ∀ k, Calendar.firstMonths y (k + 1) = Calendar.firstMonths y k + monthLength y (k + 1) := fun _ => rfl
  induction k with
  | zero =>
    rw [hnext, hnext]
    show 0 + 31 + monthLength y 2 = 31 + monthLength y 2 + 0
    ring
  | succ k ih =>
    rw [hnext, ih (by omega), add_assoc (31 + monthLength y 2)]
    congr 1
    have hlen : monthLength y (k + 1 + 1 + 1) = if k + 1 + 1 + 1 = 4 ∨ k + 1 + 1 + 1 = 6 ∨ k + 1 + 1 + 1 = 9 ∨
        k + 1 + 1 + 1 = 11 then 30 else 31 := if_neg (by omega)
    rw [hlen]
    have hk' : k ≤ 8 := by omega
    clear hlen hnext ih hk
    interval_cases k <;> rfl

theorem daysFromCivil_eq (y : Int) {m : Int} (hm : 1 ≤ m) (hm12 : m ≤ 12) (d : Int) :
    daysFromCivil y m d = monthStart y m.toNat + d - 719163 := by
  have hfeb : monthLength y 2 = if Calendar.Leap y then 29 else 28 := rfl
  unfold daysFromCivil monthStart Calendar.yearStart
  dsimp only
  rw [floorDiv_eq (by decide)]
  by_cases hearly : m ≤ 2
  · have hfirst : Calendar.firstMonths y (m.toNat - 1) = (m - 1) * 31 := by
      rcases (show m = 1 ∨ m = 2 by omega) with rfl | rfl <;> rfl
    rw [if_pos hearly, if_neg (not_lt.2 hearly), hfirst]
    omega
  · have hfirst := firstMonths_line y (k := m.toNat - 3) (by omega)
    rw [show m.toNat - 3 + 2 = m.toNat - 1 by omega, hfeb, show ((m.toNat - 3 : Nat) : Int) = m - 3 by omega] at hfirst
    rw [if_neg hearly, if_pos (not_le.1 hearly), hfirst]
    unfold Calendar.Leap
    split_ifs <;> omega

theorem zoneTimegm_iff {dt : DateTime} {e : Int} (hdt : dt.Dated) :
    zoneTimegm dt = some e ↔ IsInt (dt.year - 1900) ∧ e = dt.count - 719163 * 86400 := by
  have hm := hdt.month_pos
  have hm12 := hdt.month_le
  have htime : gbTimegm ⟨dt.year - 1900, (if 1 ≤ dt.month then dt.month else 1) - 1, if 1 ≤ dt.day then dt.day else 1,
      dt.hour, dt.minute, dt.second⟩ = dt.count - 719163 * 86400 := by
    unfold gbTimegm
    dsimp only
    rw [if_pos hm, if_pos hdt.day_pos, floorDiv_eq (by decide), Int.ediv_eq_zero_of_lt (by omega) (by omega), zero_mul,
      sub_zero, sub_add_cancel, sub_add_cancel, add_zero, daysFromCivil_eq _ hm hm12]
    unfold DateTime.count DateTime.dayNumber
    ring
  unfold zoneTimegm zoneFillTm
  simp only [Option.bind_eq_bind, Option.map_eq_some_iff, Option.bind_eq_some_iff, cint_eq_some]
  constructor
  · rintro ⟨tm, ⟨_, ⟨hy, rfl⟩, htm⟩, rfl⟩
    cases htm
    exact ⟨hy, htime⟩
  · rintro ⟨hy, rfl⟩
    exact ⟨_, ⟨_, ⟨hy, rfl⟩, rfl⟩, htime⟩

/-! ## Totals -/

theorem durationFromTotals_iff {s : Int} {d : Duration} : durationFromTotals 0 s = some d ↔ IsInt (s.tdiv 86400) ∧
    d = ⟨0, 0, 0, s.tdiv 86400, (s.tmod 86400).tdiv 3600, ((s.tmod 86400).tmod 3600).tdiv 60,
      ((s.tmod 86400).tmod 3600).tmod 60⟩ := by
  unfold durationFromTotals
  simp only [Option.bind_eq_bind, Option.bind_eq_some_iff, cint_eq_some]
  constructor
  · rintro ⟨_, ⟨-, rfl⟩, _, ⟨hdays, rfl⟩, h⟩
    cases h
    exact ⟨hdays, rfl⟩
  · rintro ⟨hdays, rfl⟩
    exact ⟨_, ⟨by decide, rfl⟩, _, ⟨hdays, rfl⟩, rfl⟩

theorem durationTotals_fromTotals {s : Int} {d : Duration} (h : durationFromTotals 0 s = some d) :
    durationTotals d = (0, s) := by
  obtain ⟨-, rfl⟩ := durationFromTotals_iff.1 h
  have h1 := Int.mul_tdiv_add_tmod s 86400
  have h2 := Int.mul_tdiv_add_tmod (s.tmod 86400) 3600
  have h3 := Int.mul_tdiv_add_tmod ((s.tmod 86400).tmod 3600) 60
  unfold durationTotals
  refine Prod.ext rfl ?_
  show (0 * 7 + s.tdiv 86400) * 86400 + (s.tmod 86400).tdiv 3600 * 3600 + ((s.tmod 86400).tmod 3600).tdiv 60 * 60 +
    ((s.tmod 86400).tmod 3600).tmod 60 = s
  omega

theorem difference_iff {l r : DateTime} {d : Duration} (hl : l.InRange) (hr : r.InRange) :
    difference l r = some (.ok d) ↔ IsInt (l.year - 1900) ∧ IsInt (r.year - 1900) ∧
      durationFromTotals 0 (l.count - r.count) = some d := by
  unfold difference
  rw [hl.dated, hr.dated, if_neg (by decide)]
  simp only [Option.bind_eq_bind, Option.bind_eq_some_iff, zoneTimegm_iff hl.toDated, zoneTimegm_iff hr.toDated]
  constructor
  · rintro ⟨_, ⟨hyl, rfl⟩, _, ⟨hyr, rfl⟩, e, he, h⟩
    cases h
    rw [sub_sub_sub_cancel_right] at he
    exact ⟨hyl, hyr, he⟩
  · rintro ⟨hyl, hyr, he⟩
    exact ⟨_, ⟨hyl, rfl⟩, _, ⟨hyr, rfl⟩, d, by rw [sub_sub_sub_cancel_right]; exact he, rfl⟩

/-! ## Exact arithmetic -/

def Duration.Exact (d : Duration) : Prop := d.years = 0 ∧ d.months = 0

def Duration.Calendar (d : Duration) : Prop :=
  d.weeks = 0 ∧ d.days = 0 ∧ d.hours = 0 ∧ d.minutes = 0 ∧ d.seconds = 0

/-- What is said of a datetime, a duration and both signs. -/
structure DateExact (dt : DateTime) (d : Duration) : Prop where
  moved : d.Exact → ∀ sign, sign = 1 ∨ sign = -1 → ∃ r, addDurationToDatetime dt d sign = some r ∧ r.InRange ∧
    r.count = dt.count + sign * (durationTotals d).2
  back : d.Exact → ∃ r, plus dt d = some r ∧ minus r d = some dt
  apart : d.Exact → ∃ r e, plus dt d = some r ∧ difference r dt = some (.ok e) ∧
    durationTotals e = (0, (durationTotals d).2)
  months : d.Calendar → ∀ sign, sign = 1 ∨ sign = -1 → ∃ r, addDurationToDatetime dt d sign = some r ∧ r.InRange ∧
    r.monthIndex = dt.monthIndex + sign * (durationTotals d).1 ∧
    r.day = min dt.day (monthLength r.year r.month.toNat) ∧
    r.hour = dt.hour ∧ r.minute = dt.minute ∧ r.second = dt.second
  unwrapped : ∀ sign, sign = 1 ∨ sign = -1 → (addDurationToDatetime dt d sign).isSome

/-- The sums are `int`s: of both signs, of the way back, and of the difference. -/
structure DateFits (dt : DateTime) (d : Duration) : Prop where
  sums : ∀ sign, sign = 1 ∨ sign = -1 → Sums dt d sign
  back : d.Exact → ∀ r : DateTime, r.InRange → r.count = dt.count + (durationTotals d).2 → Sums r d (-1)
  apart : d.Exact → IsInt (dt.year - 1900) ∧ IsInt ((durationTotals d).2.tdiv 86400) ∧
    ∀ r : DateTime, r.InRange → r.count = dt.count + (durationTotals d).2 → IsInt (r.year - 1900)

section
variable {dt r : DateTime} {d : Duration} {sign : Int}

theorem Duration.Exact.months (h : d.Exact) : (durationTotals d).1 = 0 := by
  unfold durationTotals
  rw [h.1, h.2]
  rfl

theorem Duration.Calendar.seconds (h : d.Calendar) : (durationTotals d).2 = 0 := by
  obtain ⟨h1, h2, h3, h4, h5⟩ := h
  unfold durationTotals
  rw [h1, h2, h3, h4, h5]
  rfl

theorem DateTime.InRange.onMonths_zero (h : dt.InRange) : dt.onMonths 0 = dt :=
  DateTime.onMonths_zero h.month_pos h.month_le h.day_le

theorem add_exact (hdt : dt.InRange) (hd : d.Exact) : addDurationToDatetime dt d sign = some r ↔
    Sums dt d sign ∧ r.InRange ∧ r.count = dt.count + sign * (durationTotals d).2 := by
  rw [add_iff hdt, hd.months, mul_zero, hdt.onMonths_zero]

theorem Sums.exists_added (hdt : dt.InRange) (h : Sums dt d sign) : ∃ r, addDurationToDatetime dt d sign = some r := by
  obtain ⟨a, ha⟩ := Date.exists_number ((dt.onMonths (sign * (durationTotals d).1)).summed d sign).dayHeld
  have hin : (((dt.onMonths (sign * (durationTotals d).1)).summed d sign).settled a).InRange :=
    DateTime.settled_inRange (inYears_iff.1 (ha ▸ h.held.years)) hdt.dated hdt.precise
  exact ⟨_, (add_iff hdt).2 ⟨h, hin, (DateTime.settled_count ha).trans DateTime.summed_count⟩⟩

theorem isSome_iff_sums (hdt : dt.InRange) : (addDurationToDatetime dt d sign).isSome ↔ Sums dt d sign := by
  constructor
  · intro h
    obtain ⟨r, hr⟩ := Option.isSome_iff_exists.1 h
    exact ((add_iff hdt).1 hr).1
  · intro h
    obtain ⟨r, hr⟩ := h.exists_added hdt
    rw [hr]
    rfl

theorem add_calendar (hdt : dt.InRange) (hd : d.Calendar) (h : Sums dt d sign) :
    addDurationToDatetime dt d sign = some (dt.onMonths (sign * (durationTotals d).1)) :=
  (add_iff hdt).2 ⟨h, hdt.onMonths h.months, by rw [hd.seconds, mul_zero, add_zero]⟩

theorem DateFits.back_eq (hdt : dt.InRange) (hd : d.Exact) (h : DateFits dt d) (hr : plus dt d = some r) :
    minus r d = some dt := by
  obtain ⟨-, hin, hcount⟩ := (add_exact hdt hd).1 hr
  rw [one_mul] at hcount
  refine (add_exact hin hd).2 ⟨h.back hd r hin hcount, hdt, ?_⟩
  rw [hcount]
  ring

/-- **Date arithmetic is exact** where no sum leaves its type, and only there. -/
theorem date_exact_iff (dt : DateTime) (d : Duration) (hdt : dt.InRange) : DateExact dt d ↔ DateFits dt d := by
  constructor
  · intro h
    refine ⟨fun sign hsign => (isSome_iff_sums hdt).1 (h.unwrapped sign hsign), fun hd r hin hcount => ?_, fun hd => ?_⟩
    · obtain ⟨r', hr', hback⟩ := h.back hd
      obtain ⟨-, hin', hcount'⟩ := (add_exact hdt hd).1 hr'
      rw [one_mul] at hcount'
      rw [← hin'.count_inj hin (hcount'.trans hcount.symm)]
      exact ((add_exact hin' hd).1 hback).1
    · obtain ⟨r', e, hr', hdiff, -⟩ := h.apart hd
      obtain ⟨-, hin', hcount'⟩ := (add_exact hdt hd).1 hr'
      rw [one_mul] at hcount'
      obtain ⟨hyr, hydt, htotal⟩ := (difference_iff hin' hdt).1 hdiff
      rw [hcount', add_sub_cancel_left] at htotal
      refine ⟨hydt, (durationFromTotals_iff.1 htotal).1, fun r hin hcount => ?_⟩
      rw [← hin'.count_inj hin (hcount'.trans hcount.symm)]
      exact hyr
  · intro h
    refine ⟨fun hd sign hsign => ?_, fun hd => ?_, fun hd => ?_, fun hd sign hsign => ?_, fun sign hsign => ?_⟩
    · obtain ⟨r, hr⟩ := (h.sums sign hsign).exists_added hdt
      exact ⟨r, hr, ((add_exact hdt hd).1 hr).2⟩
    · obtain ⟨r, hr⟩ := (h.sums 1 (.inl rfl)).exists_added hdt
      exact ⟨r, hr, h.back_eq hdt hd hr⟩
    · obtain ⟨r, hr⟩ := (h.sums 1 (.inl rfl)).exists_added hdt
      obtain ⟨-, hin, hcount⟩ := (add_exact hdt hd).1 hr
      rw [one_mul] at hcount
      obtain ⟨hydt, hdays, hyr⟩ := h.apart hd
      have htotal := durationFromTotals_iff.2 ⟨hdays, rfl⟩
      refine ⟨r, _, hr, (difference_iff hin hdt).2 ⟨hyr r hin hcount, hydt, ?_⟩, durationTotals_fromTotals htotal⟩
      rw [hcount, add_sub_cancel_left]
      exact htotal
    · have hsums := h.sums sign hsign
      refine ⟨_, add_calendar hdt hd hsums, hdt.onMonths hsums.months, ?_, rfl, rfl, rfl, rfl⟩
      show (dt.monthIndex + sign * (durationTotals d).1) / 12 * 12 +
        ((dt.monthIndex + sign * (durationTotals d).1) % 12 + 1 - 1) = _
      omega
    · exact (isSome_iff_sums hdt).2 (h.sums sign hsign)

end

/-- The last evening of a January. -/
def evening : DateTime := ⟨2024, 1, 31, 22, 30, 59, false, .second⟩

/-- `1 week 2 days 5 hours 40 minutes`. -/
def nineDays : Duration := ⟨0, 0, 1, 2, 5, 40, 0⟩

def afterNine : DateTime := ⟨2024, 2, 10, 4, 10, 59, false, .second⟩

theorem evening_inRange : evening.InRange :=
  ⟨⟨by decide, by decide, by decide, by decide, by decide⟩, ⟨by decide, by decide, by decide⟩, rfl, rfl⟩

theorem afterNine_inRange : afterNine.InRange :=
  ⟨⟨by decide, by decide, by decide, by decide, by decide⟩, ⟨by decide, by decide, by decide⟩, rfl, rfl⟩

theorem date_exact_evening : DateExact evening nineDays := by
  have hsums : ∀ dt : DateTime, dt = evening ∨ dt = afterNine → ∀ sign : Int, sign = 1 ∨ sign = -1 →
      Sums dt nineDays sign := by
    rintro dt (rfl | rfl) sign (rfl | rfl) <;>
      exact ⟨by decide, ⟨by decide, by decide, by decide, by decide, by decide, by decide, by decide, by decide,
        by decide, by decide⟩, ⟨by decide, by decide, by decide, by decide⟩⟩
  have hafter : ∀ r : DateTime, r.InRange → r.count = evening.count + (durationTotals nineDays).2 → r = afterNine :=
    fun r hr hcount => hr.count_inj afterNine_inRange (hcount.trans (by decide))
  refine (date_exact_iff evening nineDays evening_inRange).2
    ⟨hsums evening (.inl rfl), fun _ r hr hcount => ?_, fun _ => ⟨by decide, by decide, fun r hr hcount => ?_⟩⟩
  · exact hsums r (.inr (hafter r hr hcount)) (-1) (.inr rfl)
  · rw [hafter r hr hcount]
    decide

/-- A minute's last second and the most seconds that a duration holds. -/
theorem seconds_wrap : ¬ ∀ (dt : DateTime) (d : Duration), dt.InRange → DateExact dt d := by
  intro h
  have hsome := (h evening ⟨0, 0, 0, 0, 0, 0, 2147483647⟩ evening_inRange).unwrapped 1 (.inl rfl)
  have hnone : addDurationToDatetime evening ⟨0, 0, 0, 0, 0, 0, 2147483647⟩ 1 = none := by rfl
  rw [hnone] at hsome
  cases hsome

end Dates
end Gbasic
