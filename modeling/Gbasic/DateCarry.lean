import Gbasic.DateTime
import Mathlib.Tactic.Linarith
/-!
# DateCarry — what the carries come to

The loops of one field are one division (`carry_eq`), and the loops of the day find the day that has the number
(`days_reach`): each counts the field above up or down by one, so that a sum leaves its type exactly where the last one
does.
-/
namespace Gbasic
namespace Dates

open Calendar (Date monthStart monthLength)

section
variable {base : Int} {unit : Nat} [NeZero unit]

theorem sub_unit_div (a : Int) (unit : Nat) [NeZero unit] : (a - unit) / unit = a / unit - 1 := by
  have hne : (unit : Int) ≠ 0 := Int.natCast_ne_zero.2 (NeZero.ne unit)
  have hadd := Int.add_mul_ediv_right a (-1) hne
  rw [neg_one_mul] at hadd
  exact hadd

theorem sub_unit_mod (a : Int) (unit : Nat) : (a - unit) % unit = a % unit := Int.sub_emod_right a unit

theorem cint_between {a b c : Int} (ha : IsInt a) (hab : a ≤ b) (hbc : b ≤ c) (hb : ¬ IsInt b) : ¬ IsInt c := by
  unfold IsInt at *
  omega

theorem carryUp_eq {low high : Int} (hhigh : IsInt high) (hlow : base ≤ low) :
    carryUp base unit low high =
      (cint (high + (low - base) / unit)).map (fun h => (base + (low - base) % unit, h)) := by
  have hpos := NeZero.pos unit
  fun_induction carryUp base unit low high with
  | case1 low high hle hnone =>
    have hquot : 1 ≤ (low - base) / unit := by
      rw [Int.le_ediv_iff_mul_le (by omega)]
      omega
    have hout : ¬ IsInt (high + 1) := fun h => by simp [cint, h] at hnone
    rw [cint, if_neg (cint_between hhigh (by omega) (by omega) hout)]
    rfl
  | case2 low high hle next hnext ih =>
    obtain ⟨hint, rfl⟩ := cint_eq_some.1 hnext
    rw [ih hint (by omega), sub_right_comm, sub_unit_div, sub_unit_mod]
    ring_nf
  | case3 low high hle =>
    rw [Int.ediv_eq_zero_of_lt (by omega) (by omega), Int.emod_eq_of_lt (by omega) (by omega), add_zero,
      add_sub_cancel, cint, if_pos hhigh]
    rfl

theorem carryDown_eq {low high : Int} (hhigh : IsInt high) (hlow : low < base + unit) :
    carryDown base unit low high =
      (cint (high + (low - base) / unit)).map (fun h => (base + (low - base) % unit, h)) := by
  have hpos := NeZero.pos unit
  fun_induction carryDown base unit low high with
  | case1 low high hlt hnone =>
    have hquot : (low - base) / unit < 0 := Int.ediv_neg_of_neg_of_pos (by omega) (by omega)
    have hout : ¬ IsInt (high - 1) := fun h => by simp [cint, h] at hnone
    have hout' : ¬ IsInt (high + (low - base) / unit) := by
      unfold IsInt at *
      omega
    rw [cint, if_neg hout']
    rfl
  | case2 low high hlt next hnext ih =>
    obtain ⟨hint, rfl⟩ := cint_eq_some.1 hnext
    have hdiv := sub_unit_div (low + unit - base) unit
    have hmod := sub_unit_mod (low + unit - base) unit
    rw [show low + (unit : Int) - base - unit = low - base by ring] at hdiv hmod
    rw [ih hint (by omega), hdiv, hmod]
    ring_nf
  | case3 low high hle =>
    rw [Int.ediv_eq_zero_of_lt (by omega) (by omega), Int.emod_eq_of_lt (by omega) (by omega), add_zero,
      add_sub_cancel, cint, if_pos hhigh]
    rfl

/-- **The loops of a field are one division.** -/
theorem carry_eq {low high : Int} (hhigh : IsInt high) :
    carry base unit low high =
      (cint (high + (low - base) / unit)).map (fun h => (base + (low - base) % unit, h)) := by
  have hpos := NeZero.pos unit
  unfold carry
  by_cases hlow : base ≤ low
  · rw [carryUp_eq hhigh hlow]
    rcases hc : cint (high + (low - base) / unit) with _ | h
    · rfl
    · obtain ⟨hint, rfl⟩ := cint_eq_some.1 hc
      have hmod := Int.emod_nonneg (low - base) (Int.natCast_ne_zero.2 (NeZero.ne unit))
      show carryDown base unit (base + (low - base) % unit) _ = _
      rw [carryDown, if_neg (by omega)]
      rfl
  · have hup : carryUp base unit low high = some (low, high) := by
      rw [carryUp, if_neg (by omega)]
    rw [hup]
    exact carryDown_eq hhigh (by omega)

end

/-! ## The days -/

def onDate (a : Date) : Int × Int × Int := (a.year, a.month, a.day)

def newYear (y : Int) : Date where
  year := y
  month := 1
  day := 1
  month_pos := le_rfl
  month_le := by decide
  day_pos := le_rfl
  day_le := by
    have := Calendar.monthLength_bounds y 1
    omega

theorem number_newYear (y : Int) : (newYear y).number = monthStart y 1 + 1 := rfl

def yearEnd (y : Int) : Date where
  year := y
  month := 12
  day := monthLength y 12
  month_pos := by decide
  month_le := le_rfl
  day_pos := by
    have := Calendar.monthLength_bounds y 12
    omega
  day_le := le_rfl

theorem number_yearEnd (y : Int) : (yearEnd y).number = monthStart (y + 1) 1 := (Calendar.yearStart_succ y).symm

structure At (n year month day : Int) : Prop where
  isYear : IsInt year
  month_pos : 1 ≤ month
  month_le : month ≤ 12
  number : monthStart year month.toNat + day = n

section
variable {n year month day : Int}

theorem At.nextMonth (h : At n year month day) (hm : month + 1 ≤ 12) :
    At n year (month + 1) (day - daysInMonth year month) := by
  have hpos := h.month_pos
  refine ⟨h.isYear, by omega, hm, ?_⟩
  rw [← h.number, daysInMonth_eq, show (month + 1).toNat = month.toNat + 1 by omega,
    Calendar.monthStart_succ _ (by omega)]
  ring

theorem At.nextYear (h : At n year 12 day) (hy : IsInt (year + 1)) :
    At n (year + 1) 1 (day - daysInMonth year 12) := by
  refine ⟨hy, le_rfl, by decide, ?_⟩
  rw [← h.number, daysInMonth_eq]
  show monthStart (year + 1) 1 + (day - monthLength year 12) = monthStart year 12 + day
  rw [Calendar.yearStart_succ]
  ring

theorem At.prevMonth (h : At n year month day) (hm : 1 ≤ month - 1) :
    At n year (month - 1) (day + daysInMonth year (month - 1)) := by
  have hle := h.month_le
  refine ⟨h.isYear, hm, by omega, ?_⟩
  have hsucc := Calendar.monthStart_succ year (m := (month - 1).toNat) (by omega)
  rw [show (month - 1).toNat + 1 = month.toNat by omega] at hsucc
  rw [← h.number, daysInMonth_eq, hsucc]
  ring

theorem At.prevYear (h : At n year 1 day) (hy : IsInt (year - 1)) :
    At n (year - 1) 12 (day + daysInMonth (year - 1) 12) := by
  refine ⟨hy, by decide, le_rfl, ?_⟩
  have hsucc := Calendar.yearStart_succ (year - 1)
  rw [sub_add_cancel] at hsucc
  rw [← h.number, daysInMonth_eq]
  show monthStart (year - 1) 12 + (day + monthLength (year - 1) 12) = monthStart year 1 + day
  rw [hsucc]
  ring

theorem At.date (h : At n year month day) (hday : 1 ≤ day) (hle : day ≤ daysInMonth year month) :
    ∃ a : Date, a.number = n ∧ IsInt a.year ∧ (year, month, day) = onDate a := by
  have hpos := h.month_pos
  have hm12 := h.month_le
  refine ⟨⟨year, month.toNat, day, by omega, by omega, hday, by rwa [daysInMonth_eq] at hle⟩, h.number, h.isYear, ?_⟩
  show (year, month, day) = (year, ((month.toNat : Nat) : Int), day)
  rw [Int.toNat_of_nonneg (by omega)]

theorem daysUp_reach {a : Date} (h : At n year month day) (hday : 1 ≤ day) (ha : IsInt a.year) (hn : a.number = n) :
    daysUp year month day = some (onDate a) := by
  fun_induction daysUp year month day with
  | case1 year month day hdim hdec hnone =>
    -- the year after is no later than the date's
    obtain rfl : month = 12 := by have := h.month_le; omega
    rw [daysInMonth_eq] at hdim
    have hnext : (newYear (year + 1)).number ≤ a.number := by
      rw [hn, ← h.number, number_newYear, Calendar.yearStart_succ, add_assoc]
      exact (Int.add_le_add_iff_left _).2 (Int.add_one_le_iff.2 hdim)
    have hle : year + 1 ≤ a.year := Date.year_le hnext
    have hy := h.isYear
    rw [cint, if_pos (by unfold IsInt at *; omega)] at hnone
    cases hnone
  | case2 year month day hdim hdec next hnext ih =>
    obtain ⟨hint, rfl⟩ := cint_eq_some.1 hnext
    obtain rfl : month = 12 := by have := h.month_le; omega
    exact ih (h.nextYear hint) (by omega)
  | case3 year month day hdim hdec ih => exact ih (h.nextMonth (by omega)) (by omega)
  | case4 year month day hdim =>
    obtain ⟨b, hb, -, hdate⟩ := h.date hday (not_lt.1 hdim)
    rw [hdate, Date.number_inj (hb.trans hn.symm)]

theorem daysDown_reach {a : Date} (h : At n year month day) (hday : day ≤ daysInMonth year month) (ha : IsInt a.year)
    (hn : a.number = n) : daysDown year month day = some (onDate a) := by
  fun_induction daysDown year month day with
  | case1 year month day hlow hjan hnone =>
    -- the year before is no earlier than the date's
    obtain rfl : month = 1 := by have := h.month_pos; omega
    have hprev : a.number ≤ (yearEnd (year - 1)).number := by
      rw [hn, ← h.number, number_yearEnd, sub_add_cancel]
      show monthStart year 1 + day ≤ monthStart year 1
      omega
    have hle : a.year ≤ year - 1 := Date.year_le hprev
    have hy := h.isYear
    rw [cint, if_pos (by unfold IsInt at *; omega)] at hnone
    cases hnone
  | case2 year month day hlow hjan before hbefore ih =>
    obtain ⟨hint, rfl⟩ := cint_eq_some.1 hbefore
    obtain rfl : month = 1 := by have := h.month_pos; omega
    exact ih (h.prevYear hint) (by omega)
  | case3 year month day hlow hjan ih => exact ih (h.prevMonth (by omega)) (by omega)
  | case4 year month day hlow =>
    obtain ⟨b, hb, -, hdate⟩ := h.date (not_lt.1 hlow) hday
    rw [hdate, Date.number_inj (hb.trans hn.symm)]

theorem daysUp_at {p : Int × Int × Int} (h : At n year month day) (hp : daysUp year month day = some p) :
    At n p.1 p.2.1 p.2.2 ∧ p.2.2 ≤ daysInMonth p.1 p.2.1 := by
  fun_induction daysUp year month day with
  | case1 => cases hp
  | case2 year month day hdim hdec next hnext ih =>
    obtain ⟨hint, rfl⟩ := cint_eq_some.1 hnext
    obtain rfl : month = 12 := by have := h.month_le; omega
    exact ih (h.nextYear hint) hp
  | case3 year month day hdim hdec ih => exact ih (h.nextMonth (by omega)) hp
  | case4 year month day hdim =>
    cases hp
    exact ⟨h, not_lt.1 hdim⟩

theorem daysDown_date {p : Int × Int × Int} (h : At n year month day) (hday : day ≤ daysInMonth year month)
    (hp : daysDown year month day = some p) : ∃ a : Date, a.number = n ∧ IsInt a.year ∧ p = onDate a := by
  fun_induction daysDown year month day with
  | case1 => cases hp
  | case2 year month day hlow hjan before hbefore ih =>
    obtain ⟨hint, rfl⟩ := cint_eq_some.1 hbefore
    obtain rfl : month = 1 := by have := h.month_pos; omega
    exact ih (h.prevYear hint) (by omega) hp
  | case3 year month day hlow hjan ih => exact ih (h.prevMonth (by omega)) (by omega) hp
  | case4 year month day hlow =>
    cases hp
    exact h.date (not_lt.1 hlow) hday

/-- **The loops of the day find the date that has the number**, where its year is one. -/
theorem days_iff (h : At n year month day) {p : Int × Int × Int} :
    (daysUp year month day).bind (fun q => daysDown q.1 q.2.1 q.2.2) = some p ↔
      ∃ a : Date, a.number = n ∧ IsInt a.year ∧ p = onDate a := by
  constructor
  · intro hp
    obtain ⟨q, hq, hp⟩ := Option.bind_eq_some_iff.1 hp
    obtain ⟨hat, hle⟩ := daysUp_at h hq
    exact daysDown_date hat hle hp
  · rintro ⟨a, hn, ha, rfl⟩
    by_cases hday : 1 ≤ day
    · rw [daysUp_reach h hday ha hn]
      show daysDown a.year a.month a.day = some (onDate a)
      rw [daysDown, if_neg (not_lt.2 a.day_pos)]
      rfl
    · have hdim := daysInMonth_bounds year month
      have hup : daysUp year month day = some (year, month, day) := by
        rw [daysUp, if_neg (by omega)]
      rw [hup]
      exact daysDown_reach h (show day ≤ daysInMonth year month by omega) ha hn

end

end Dates
end Gbasic
