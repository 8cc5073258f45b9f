import Mathlib.Tactic.IntervalCases
import Mathlib.Tactic.Ring
/-!
# Calendar — the days of the proleptic Gregorian calendar

Every day of every year has a number, and every number is one day's (`exists_day`, `day_unique`): a month starts where
the month before it ends (`monthStart_succ`, `yearStart_succ`).
-/
namespace Gbasic
namespace Calendar

def Leap (y : Int) : Prop := y % 4 = 0 ∧ y % 100 ≠ 0 ∨ y % 400 = 0

instance (y : Int) : Decidable (Leap y) := inferInstanceAs (Decidable (_ ∨ _))

def monthLength (y : Int) (m : Nat) : Int :=
  if m = 2 then if Leap y then 29 else 28 else if m = 4 ∨ m = 6 ∨ m = 9 ∨ m = 11 then 30 else 31

def yearStart (y : Int) : Int := 365 * (y - 1) + (y - 1) / 4 - (y - 1) / 100 + (y - 1) / 400

def firstMonths (y : Int) : Nat → Int
  | 0 => 0
  | m + 1 => firstMonths y m + monthLength y (m + 1)

def monthStart (y : Int) (m : Nat) : Int := yearStart y + firstMonths y (m - 1)

theorem monthLength_bounds (y : Int) (m : Nat) : 28 ≤ monthLength y m ∧ monthLength y m ≤ 31 := by
  unfold monthLength
  split_ifs <;> omega

theorem monthStart_succ (y : Int) {m : Nat} (hm : 1 ≤ m) :
    monthStart y (m + 1) = monthStart y m + monthLength y m := by
  obtain ⟨m, rfl⟩ := Nat.exists_eq_succ_of_ne_zero (Nat.one_le_iff_ne_zero.1 hm)
  unfold monthStart
  rw [Nat.add_sub_cancel, Nat.succ_sub_one, firstMonths, add_assoc]

theorem yearStart_succ (y : Int) : monthStart (y + 1) 1 = monthStart y 12 + monthLength y 12 := by
  rw [← monthStart_succ y (by decide)]
  unfold monthStart
  have hsum : firstMonths y 12 =
      0 + 31 + monthLength y 2 + 31 + 30 + 31 + 30 + 31 + 31 + 30 + 31 + 30 + 31 := rfl
  have hfeb : monthLength y 2 = if Leap y then 29 else 28 := rfl
  show yearStart (y + 1) + 0 = yearStart y + firstMonths y 12
  rw [hsum, hfeb]
  unfold yearStart Leap
  split_ifs <;> omega

/-! ## Dates -/

structure Date where
  year : Int
  month : Nat
  day : Int
  month_pos : 1 ≤ month
  month_le : month ≤ 12
  day_pos : 1 ≤ day
  day_le : day ≤ monthLength year month

namespace Date

@[ext] theorem ext' {a b : Date} (hy : a.year = b.year) (hm : a.month = b.month) (hd : a.day = b.day) : a = b := by
  cases a
  cases b
  cases hy
  cases hm
  cases hd
  rfl

/-- The day's number, 1 for 1 January of the year 1. -/
def number (a : Date) : Int := monthStart a.year a.month + a.day

end Date

theorem month_over : ∀ (k : Nat) {y y' : Int} {m m' : Nat}, 1 ≤ m → m ≤ 12 → 1 ≤ m' → m' ≤ 12 →
    12 * y + m + k + 1 = 12 * y' + m' → monthStart y m + monthLength y m ≤ monthStart y' m'
  | k, y, y', m, m', hm, hm12, hm', hm12', hk => by
    by_cases hdec : m = 12
    · subst hdec
      rw [← yearStart_succ]
      cases k with
      | zero =>
        obtain rfl : y' = y + 1 := by omega
        obtain rfl : m' = 1 := by omega
        exact le_rfl
      | succ k =>
        have hnext : monthStart (y + 1) 1 + monthLength (y + 1) 1 ≤ monthStart y' m' :=
          month_over k le_rfl (by decide) hm' hm12' (by push_cast at hk ⊢; omega)
        have hpos := monthLength_bounds (y + 1) 1
        omega
    · rw [← monthStart_succ y hm]
      cases k with
      | zero =>
        obtain rfl : y' = y := by omega
        obtain rfl : m' = m + 1 := by omega
        exact le_rfl
      | succ k =>
        have hnext : monthStart y (m + 1) + monthLength y (m + 1) ≤ monthStart y' m' :=
          month_over k (by omega) (by omega) hm' hm12' (by push_cast at hk ⊢; omega)
        have hpos := monthLength_bounds y (m + 1)
        omega

namespace Date

theorem number_lt {a b : Date} (h : 12 * a.year + a.month < 12 * b.year + b.month) : a.number < b.number := by
  obtain ⟨k, hk⟩ := Int.le.dest (Int.add_one_le_iff.2 h)
  have hover : monthStart a.year a.month + monthLength a.year a.month ≤ monthStart b.year b.month :=
    month_over k a.month_pos a.month_le b.month_pos b.month_le (by omega)
  have ha := a.day_le
  have hb := b.day_pos
  unfold number
  omega

/-- **A number is one day's.** -/
theorem number_inj {a b : Date} (h : a.number = b.number) : a = b := by
  have hmonth : 12 * a.year + a.month = 12 * b.year + b.month := by
    rcases lt_trichotomy (12 * a.year + (a.month : Int)) (12 * b.year + b.month) with hlt | heq | hgt
    · exact absurd h (number_lt hlt).ne
    · exact heq
    · exact absurd h.symm (number_lt hgt).ne
  have ha := And.intro a.month_pos a.month_le
  have hb := And.intro b.month_pos b.month_le
  have hy : a.year = b.year := by omega
  have hm : a.month = b.month := by omega
  refine ext' hy hm ?_
  unfold number at h
  rw [hy, hm] at h
  exact add_left_cancel h

theorem year_le {a b : Date} (h : a.number ≤ b.number) : a.year ≤ b.year := by
  by_contra hlt
  have ha := a.month_pos
  have hb := b.month_le
  exact absurd (number_lt (a := b) (b := a) (by omega)) (not_lt.2 h)

theorem exists_next (a : Date) : ∃ b : Date, b.number = a.number + 1 := by
  by_cases hday : a.day < monthLength a.year a.month
  · exact ⟨⟨a.year, a.month, a.day + 1, a.month_pos, a.month_le, by have := a.day_pos; omega, by omega⟩, by
      show monthStart a.year a.month + (a.day + 1) = monthStart a.year a.month + a.day + 1
      omega⟩
  have hlast : a.day = monthLength a.year a.month := le_antisymm a.day_le (not_lt.1 hday)
  by_cases hdec : a.month = 12
  · refine ⟨⟨a.year + 1, 1, 1, le_rfl, by decide, le_rfl, by have := monthLength_bounds (a.year + 1) 1; omega⟩, ?_⟩
    show monthStart (a.year + 1) 1 + 1 = monthStart a.year a.month + a.day + 1
    rw [yearStart_succ, hlast, hdec]
  · refine ⟨⟨a.year, a.month + 1, 1, by omega, by have := a.month_le; omega, le_rfl,
      by have := monthLength_bounds a.year (a.month + 1); omega⟩, ?_⟩
    show monthStart a.year (a.month + 1) + 1 = monthStart a.year a.month + a.day + 1
    rw [monthStart_succ _ a.month_pos, hlast]

theorem exists_prev (a : Date) : ∃ b : Date, b.number = a.number - 1 := by
  by_cases hday : 1 < a.day
  · exact ⟨⟨a.year, a.month, a.day - 1, a.month_pos, a.month_le, by omega, by have := a.day_le; omega⟩, by
      show monthStart a.year a.month + (a.day - 1) = monthStart a.year a.month + a.day - 1
      omega⟩
  have hfirst : a.day = 1 := le_antisymm (not_lt.1 hday) a.day_pos
  by_cases hjan : a.month = 1
  · refine ⟨⟨a.year - 1, 12, monthLength (a.year - 1) 12, by decide, le_rfl,
      by have := monthLength_bounds (a.year - 1) 12; omega, le_rfl⟩, ?_⟩
    show monthStart (a.year - 1) 12 + monthLength (a.year - 1) 12 = monthStart a.year a.month + a.day - 1
    rw [← yearStart_succ, sub_add_cancel, hjan, hfirst, add_sub_cancel_right]
  · have hm := a.month_pos
    refine ⟨⟨a.year, a.month - 1, monthLength a.year (a.month - 1), by omega, by have := a.month_le; omega,
      by have := monthLength_bounds a.year (a.month - 1); omega, le_rfl⟩, ?_⟩
    show monthStart a.year (a.month - 1) + monthLength a.year (a.month - 1) = monthStart a.year a.month + a.day - 1
    rw [← monthStart_succ _ (by omega), Nat.sub_add_cancel hm, hfirst, add_sub_cancel_right]

/-- **Every number is a day's.** -/
theorem exists_number (n : Int) : ∃ a : Date, a.number = n := by
  induction n using Int.induction_on with
  | zero => exact ⟨⟨0, 12, 31, by decide, by decide, by decide, by decide⟩, by decide⟩
  | succ n ih =>
    obtain ⟨a, ha⟩ := ih
    obtain ⟨b, hb⟩ := a.exists_next
    exact ⟨b, by rw [hb, ha]⟩
  | pred n ih =>
    obtain ⟨a, ha⟩ := ih
    obtain ⟨b, hb⟩ := a.exists_prev
    exact ⟨b, by rw [hb, ha]⟩

end Date
end Calendar
end Gbasic
