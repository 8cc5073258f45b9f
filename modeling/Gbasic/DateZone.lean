import Gbasic.DateArith
/-!
# DateZone — the civil time of an instant

`civilFromDays` undoes `daysFromCivil`: the years of an era are told apart by the days that they start at
(`yearOf_day`), and the months of a year from March on by a line (`monthOf_day`).
-/
namespace Gbasic
namespace Dates

open Calendar (Date monthStart monthLength)
open Calendar (Leap)

def civilFromDays (z : Int) : Int × Int × Int :=
  let z := z + 719468
  let era := floorDiv z 146097
  let doe := z - era * 146097
  let yoe := (doe - doe / 1460 + doe / 36524 - doe / 146096) / 365
  let doy := doe - (365 * yoe + yoe / 4 - yoe / 100)
  let mp := (5 * doy + 2) / 153
  let d := doy - (153 * mp + 2) / 5 + 1
  let m := if mp < 10 then mp + 3 else mp - 9
  (yoe + era * 400 + (if m ≤ 2 then 1 else 0), m, d)

def gbGmtime (t : Int) : Option Tm :=
  let days := floorDiv t 86400
  let rem := t - days * 86400
  let (y, m, d) := civilFromDays days
  match cint (y - 1900) with
  | none => none
  | some year => some ⟨year, m - 1, d, rem / 3600, rem % 3600 / 60, rem % 60⟩

def zoneCivilFromEpochUtc (epoch : Int) (prec : Precision) : Option DateTime := do
  let g ← gbGmtime epoch
  let year ← cint (g.year + 1900)
  some ⟨year, g.mon + 1, g.mday, g.hour, g.min, g.sec, false, if prec.rank < 4 then .second else prec⟩

theorem yearOf_day {yoe doy : Int} (h0 : 0 ≤ yoe) (h1 : yoe ≤ 399) (h2 : 0 ≤ doy)
    (h3 : doy ≤ 364 ∨ doy = 365 ∧ Leap (yoe + 1)) {doe : Int}
    (hd : doe = yoe * 365 + yoe / 4 - yoe / 100 + doy) :
    (doe - doe / 1460 + doe / 36524 - doe / 146096) / 365 = yoe := by
  -- the century, the four years of it and the year of those
  obtain ⟨c, hc⟩ : ∃ c, c = yoe / 100 := ⟨_, rfl⟩
  obtain ⟨q, hq⟩ : ∃ q, q = yoe % 100 / 4 := ⟨_, rfl⟩
  obtain ⟨s, hs⟩ : ∃ s, s = yoe % 4 := ⟨_, rfl⟩
  have hyoe : yoe = 100 * c + 4 * q + s := by omega
  have hc4 : 0 ≤ c ∧ c ≤ 3 := by omega
  have hq25 : 0 ≤ q ∧ q ≤ 24 := by omega
  have hs4 : 0 ≤ s ∧ s ≤ 3 := by omega
  have hlast : doy = 365 → s = 3 ∧ (q = 24 → c = 3) := by
    intro hdoy
    have hleap : Leap (yoe + 1) := (h3.resolve_left (by omega)).2
    unfold Leap at hleap
    omega
  have hdoy : doy ≤ 365 := by omega
  have hdoe : doe = 36524 * c + (1461 * q + 365 * s + doy) := by omega
  clear hd h3 hc hq hs
  have hcent : doe / 36524 - doe / 146096 = c := by
    rcases (show 1461 * q + 365 * s + doy ≤ 36523 ∨ 1461 * q + 365 * s + doy = 36524 ∧ c = 3 by omega) with
      hx | ⟨hx, hc3⟩
    · have h36 : doe / 36524 = c := by omega
      have h146 : doe / 146096 = 0 := by omega
      omega
    · have h36 : doe / 36524 = 4 := by omega
      have h146 : doe / 146096 = 1 := by omega
      omega
  obtain ⟨e, he⟩ : ∃ e, e = (24 * c + q + 365 * s + doy) / 1460 := ⟨_, rfl⟩
  have h1460 : doe / 1460 = 25 * c + q + e := by omega
  have hsmall : 0 ≤ doy - e ∧ doy - e < 365 := by omega
  have hsum : doe - doe / 1460 + doe / 36524 - doe / 146096 = doy - e + 365 * yoe := by
    rw [h1460, add_sub_assoc, hcent, hdoe, hyoe]
    ring
  rw [hsum, Int.add_mul_ediv_left _ _ (by decide), Int.ediv_eq_zero_of_lt hsmall.1 hsmall.2, zero_add]

theorem monthOf_day {mp d : Int} (hd : 1 ≤ d) (hd' : d ≤ (153 * (mp + 1) + 2) / 5 - (153 * mp + 2) / 5) :
    (5 * ((153 * mp + 2) / 5 + d - 1) + 2) / 153 = mp := by
  omega

theorem day_of_march (a : Date) : ∃ era yoe mp : Int, 0 ≤ yoe ∧ yoe ≤ 399 ∧ 0 ≤ mp ∧ mp ≤ 11 ∧
    (mp = if (2 : Int) < a.month then (a.month : Int) - 3 else a.month + 9) ∧
    a.year = era * 400 + yoe + (if (a.month : Int) ≤ 2 then 1 else 0) ∧
    a.day ≤ (153 * (mp + 1) + 2) / 5 - (153 * mp + 2) / 5 ∧
    ((153 * mp + 2) / 5 + a.day - 1 ≤ 364 ∨ (153 * mp + 2) / 5 + a.day - 1 = 365 ∧ Leap (yoe + 1)) ∧
    a.number - 719163 = era * 146097 + (yoe * 365 + yoe / 4 - yoe / 100 +
      ((153 * mp + 2) / 5 + a.day - 1)) - 719468 := by
  have hm := a.month_pos
  have hm12 := a.month_le
  have hday := a.day_le
  obtain ⟨y', hy'⟩ : ∃ y', y' = if (a.month : Int) ≤ 2 then a.year - 1 else a.year := ⟨_, rfl⟩
  obtain ⟨mp, hmp⟩ : ∃ mp, mp = if (2 : Int) < a.month then (a.month : Int) - 3 else a.month + 9 := ⟨_, rfl⟩
  have hmp11 : 0 ≤ mp ∧ mp ≤ 11 := by split_ifs at hmp <;> omega
  have hlen : monthLength a.year a.month ≤ (153 * (mp + 1) + 2) / 5 - (153 * mp + 2) / 5 ∧
      ((153 * mp + 2) / 5 + monthLength a.year a.month - 1 ≤ 364 ∨
        (153 * mp + 2) / 5 + monthLength a.year a.month - 1 = 365 ∧ a.month = 2 ∧ Leap a.year) := by
    rw [hmp]
    unfold monthLength
    generalize a.month = m at *
    generalize a.year = y at *
    interval_cases m <;> by_cases hleap : Leap y <;> simp [hleap]
  refine ⟨y' / 400, y' % 400, mp, by omega, by omega, hmp11.1, hmp11.2, hmp, ?_, by omega, ?_, ?_⟩
  · split_ifs at hy' ⊢ <;> omega
  · rcases hlen.2 with h364 | ⟨h365, hfeb, hleap⟩
    · exact .inl (by omega)
    · rcases (show (153 * mp + 2) / 5 + a.day - 1 ≤ 364 ∨ (153 * mp + 2) / 5 + a.day - 1 = 365 by omega) with h | h
      · exact .inl h
      · refine .inr ⟨h, ?_⟩
        rw [hfeb, if_pos (by decide)] at hy'
        unfold Leap at hleap ⊢
        omega
  · have hcivil := daysFromCivil_eq a.year (show (1 : Int) ≤ a.month by omega) (by omega) a.day
    unfold daysFromCivil at hcivil
    dsimp only at hcivil
    rw [← hy', ← hmp, floorDiv_eq (by decide), Int.toNat_natCast] at hcivil
    rw [Date.number, ← hcivil]
    have hmod : y' % 400 = y' - y' / 400 * 400 := by omega
    rw [hmod]

/-- **The civil date of a day is the date that has its number.** -/
theorem civilFromDays_number (a : Date) : civilFromDays (a.number - 719163) = onDate a := by
  obtain ⟨era, yoe, mp, hy0, hy1, -, -, hmp, hyear, hday, hdoy, hnumber⟩ := day_of_march a
  have hpos := a.day_pos
  obtain ⟨doy, hdoy'⟩ : ∃ doy, doy = (153 * mp + 2) / 5 + a.day - 1 := ⟨_, rfl⟩
  obtain ⟨doe, hdoe⟩ : ∃ doe, doe = yoe * 365 + yoe / 4 - yoe / 100 + doy := ⟨_, rfl⟩
  rw [← hdoy'] at hnumber hdoy
  rw [← hdoe] at hnumber
  have hdoy0 : 0 ≤ doy := by omega
  have hyearOf := yearOf_day hy0 hy1 hdoy0 hdoy hdoe
  have hrange : 0 ≤ doe ∧ doe < 146097 := by
    rcases hdoy with h | ⟨h, hleap⟩
    · omega
    · unfold Leap at hleap
      omega
  have hera : (era * 146097 + doe - 719468 + 719468) / 146097 = era := by
    rw [sub_add_cancel, add_comm, Int.add_mul_ediv_right _ _ (by decide), Int.ediv_eq_zero_of_lt hrange.1 hrange.2,
      zero_add]
  unfold civilFromDays
  dsimp only
  rw [hnumber, floorDiv_eq (by decide), hera]
  have hdoe' : era * 146097 + doe - 719468 + 719468 - era * 146097 = doe := by ring
  rw [hdoe', hyearOf]
  have hdoy'' : doe - (365 * yoe + yoe / 4 - yoe / 100) = doy := by
    rw [hdoe]
    ring
  rw [hdoy'', hdoy', monthOf_day hpos hday]
  have hmonth : (if mp < 10 then mp + 3 else mp - 9) = a.month := by
    have hm := a.month_pos
    have hm12 := a.month_le
    split_ifs at hmp ⊢ <;> omega
  rw [hmonth]
  unfold onDate
  rw [hyear]
  refine Prod.ext ?_ (Prod.ext rfl ?_)
  · show yoe + era * 400 + _ = era * 400 + yoe + _
    ring
  · show (153 * mp + 2) / 5 + a.day - 1 - (153 * mp + 2) / 5 + 1 = a.day
    ring

/-- **The civil time of an instant has its seconds.** -/
theorem zoneCivil_some {epoch : Int} {prec : Precision} {r : DateTime} (h : zoneCivilFromEpochUtc epoch prec = some r) :
    r.Dated ∧ r.Timed ∧ r.timeOnly = false ∧ r.precision = (if prec.rank < 4 then .second else prec) ∧
      r.count = epoch + 719163 * 86400 := by
  unfold zoneCivilFromEpochUtc at h
  obtain ⟨g, hg, h⟩ := Option.bind_eq_some_iff.1 h
  obtain ⟨year, hyear, h⟩ := Option.bind_eq_some_iff.1 h
  cases h
  obtain ⟨a, ha⟩ := Date.exists_number (floorDiv epoch 86400 + 719163)
  have hcivil : civilFromDays (floorDiv epoch 86400) = onDate a := by
    rw [← civilFromDays_number, ha, add_sub_cancel_right]
  unfold gbGmtime at hg
  dsimp only at hg
  rw [hcivil] at hg
  unfold onDate at hg
  dsimp only at hg
  split at hg
  · cases hg
  rename_i y hy
  cases hg
  obtain ⟨-, rfl⟩ := cint_eq_some.1 hy
  obtain ⟨hint, rfl⟩ := cint_eq_some.1 hyear
  dsimp only at hint ⊢
  rw [floorDiv_eq (by decide)] at ha
  have hfloor : floorDiv epoch 86400 = epoch / 86400 := floorDiv_eq (by decide)
  have hm := a.month_pos
  have hm12 := a.month_le
  have hmonth : (a.month : Int) - 1 + 1 = a.month := by ring
  have hyear : a.year - 1900 + 1900 = a.year := by ring
  rw [hyear] at hint ⊢
  rw [hmonth, hfloor]
  refine ⟨⟨hint, ?_, ?_, a.day_pos, ?_⟩, ⟨?_, ?_, ?_⟩, rfl, rfl, ?_⟩
  · show (1 : Int) ≤ a.month
    omega
  · show (a.month : Int) ≤ 12
    omega
  · show a.day ≤ monthLength a.year ((a.month : Nat) : Int).toNat
    rw [Int.toNat_natCast]
    exact a.day_le
  · show 0 ≤ (epoch - epoch / 86400 * 86400) / 3600 ∧ (epoch - epoch / 86400 * 86400) / 3600 < 24
    omega
  · show 0 ≤ (epoch - epoch / 86400 * 86400) % 3600 / 60 ∧ (epoch - epoch / 86400 * 86400) % 3600 / 60 < 60
    omega
  · show 0 ≤ (epoch - epoch / 86400 * 86400) % 60 ∧ (epoch - epoch / 86400 * 86400) % 60 < 60
    omega
  · unfold DateTime.count DateTime.dayNumber
    dsimp only
    rw [Int.toNat_natCast]
    rw [Date.number] at ha
    rw [ha]
    omega

end Dates
end Gbasic
