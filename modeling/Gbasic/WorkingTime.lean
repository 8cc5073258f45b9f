import Mathlib.Algebra.BigOperators.Intervals
import Mathlib.Algebra.Order.BigOperators.Group.Finset
import Mathlib.Data.Int.ConditionallyCompleteOrder
import Mathlib.Data.Int.Interval
import Mathlib.Order.Interval.Finset.Basic
import Mathlib.Tactic.Linarith
/-!
# WorkingTime — time that counts in windows alone (library)

Days of one length, numbered by integers, some of which have a window in them.  The working time from one instant to a
later one is what of the windows lies between them (`work`): it adds up, and a span cut short after so many days leaves
out the windows from there on (`work_cut`).  Nothing here names a repository.
-/
namespace Gbasic
namespace WorkingTime

variable {x y d days : Int}

structure Windows where
  length : Int
  opens : Int
  closes : Int
  works : Int → Bool
  opens_nonneg : 0 ≤ opens
  opens_lt : opens < closes
  closes_lt : closes < length

variable (w : Windows)

namespace Windows

def openOn (d : Int) : Int := d * w.length + w.opens

def closeOn (d : Int) : Int := d * w.length + w.closes

def dayOf (x : Int) : Int := x / w.length

/-- How much of a day's window is before an instant. -/
def amount (d x : Int) : Int :=
  if w.works d then max 0 (min (w.closes - w.opens) (x - w.openOn d)) else 0

/-- The working time from an instant to another that is no earlier. -/
noncomputable def work (x y : Int) : Int := ∑ d ∈ Finset.Icc (w.dayOf x) (w.dayOf y), (w.amount d y - w.amount d x)

def Idle (x y : Int) : Prop := ∀ d, w.works d = true → min y (w.closeOn d) ≤ max x (w.openOn d)

end Windows

variable {w}

theorem length_pos : 0 < w.length := lt_of_le_of_lt (w.opens_nonneg.trans w.opens_lt.le) w.closes_lt

theorem dayOf_le (h : x ≤ y) : w.dayOf x ≤ w.dayOf y := Int.ediv_le_ediv length_pos h

theorem dayOf_mul_le (x : Int) : w.dayOf x * w.length ≤ x := Int.ediv_mul_le x length_pos.ne'

theorem lt_dayOf_succ (x : Int) : x < (w.dayOf x + 1) * w.length := Int.lt_ediv_add_one_mul_self x length_pos

theorem dayOf_eq (h : d * w.length ≤ x) (h' : x < (d + 1) * w.length) : w.dayOf x = d :=
  le_antisymm (Int.lt_add_one_iff.1 ((Int.ediv_lt_iff_lt_mul length_pos).2 h'))
    ((Int.le_ediv_iff_mul_le length_pos).2 h)

theorem dayOf_in (h : w.openOn d ≤ x) (h' : x ≤ w.closeOn d) : w.dayOf x = d := by
  have h1 := w.opens_nonneg
  have h2 := w.closes_lt
  unfold Windows.openOn at h
  unfold Windows.closeOn at h'
  refine dayOf_eq (by omega) ?_
  rw [Int.add_mul, Int.one_mul]
  omega

theorem le_openOn (h : w.dayOf x < d) : x ≤ w.openOn d := by
  have h1 := lt_dayOf_succ (w := w) x
  have h2 : (w.dayOf x + 1) * w.length ≤ d * w.length := Int.mul_le_mul_of_nonneg_right h length_pos.le
  have h3 := w.opens_nonneg
  unfold Windows.openOn
  omega

theorem closeOn_le (h : d < w.dayOf x) : w.closeOn d ≤ x := by
  have h1 := dayOf_mul_le (w := w) x
  have h2 : (d + 1) * w.length ≤ w.dayOf x * w.length := Int.mul_le_mul_of_nonneg_right h length_pos.le
  have h3 := w.closes_lt
  rw [Int.add_mul, Int.one_mul] at h2
  unfold Windows.closeOn
  omega

theorem amount_before (h : x ≤ w.openOn d) : w.amount d x = 0 := by
  unfold Windows.amount
  split_ifs
  · exact max_eq_left ((min_le_right _ _).trans (by omega))
  · rfl

theorem amount_after (h : w.closeOn d ≤ x) : w.amount d x = if w.works d then w.closes - w.opens else 0 := by
  have h1 := w.opens_lt
  unfold Windows.amount
  unfold Windows.closeOn at h
  unfold Windows.openOn
  split_ifs
  · rw [min_eq_left (by omega), max_eq_right (by omega)]
  · rfl

theorem amount_mono (h : x ≤ y) : w.amount d x ≤ w.amount d y := by
  unfold Windows.amount
  split_ifs
  · exact max_le_max le_rfl (min_le_min le_rfl (by omega))
  · exact le_rfl

theorem amount_sub_le (d x y : Int) : w.amount d y - w.amount d x ≤ w.closes - w.opens := by
  have h1 := w.opens_lt
  unfold Windows.amount
  split_ifs <;> omega

theorem amount_sub (hw : w.works d = true) (h : x ≤ y) :
    w.amount d y - w.amount d x = max 0 (min y (w.closeOn d) - max x (w.openOn d)) := by
  have h1 := w.opens_lt
  unfold Windows.amount Windows.closeOn Windows.openOn
  rw [if_pos hw, if_pos hw]
  omega

theorem work_eq {e : Int} (h : x ≤ y) (hd : d ≤ w.dayOf x) (he : w.dayOf y ≤ e) :
    w.work x y = ∑ k ∈ Finset.Icc d e, (w.amount k y - w.amount k x) := by
  refine Finset.sum_subset (Finset.Icc_subset_Icc hd he) (fun k _ hout => ?_)
  rw [Finset.mem_Icc, not_and_or, not_le, not_le] at hout
  rcases hout with hout | hout
  · rw [amount_after (closeOn_le hout), amount_after ((closeOn_le hout).trans h), sub_self]
  · rw [amount_before (le_openOn hout), amount_before (h.trans (le_openOn hout)), sub_self]

theorem work_add {z : Int} (h : x ≤ y) (h' : y ≤ z) : w.work x z = w.work x y + w.work y z := by
  rw [work_eq (h.trans h') le_rfl le_rfl, work_eq h le_rfl (dayOf_le h'), work_eq h' (dayOf_le h) le_rfl,
    ← Finset.sum_add_distrib]
  exact Finset.sum_congr rfl (fun k _ => (sub_add_sub_cancel' _ _ _).symm)

theorem work_self (x : Int) : w.work x x = 0 := Finset.sum_eq_zero (fun _ _ => sub_self _)

theorem work_nonneg (h : x ≤ y) : 0 ≤ w.work x y :=
  Finset.sum_nonneg (fun _ _ => sub_nonneg.2 (amount_mono h))

theorem work_mono {z : Int} (h : x ≤ y) (h' : y ≤ z) : w.work x y ≤ w.work x z := by
  have h1 := work_nonneg (w := w) h'
  rw [work_add h h']
  omega

theorem work_anti {z : Int} (h : x ≤ y) (h' : y ≤ z) : w.work y z ≤ w.work x z := by
  have h1 := work_nonneg (w := w) h
  rw [work_add h h']
  omega

theorem work_eq_zero (h : x ≤ y) : w.work x y = 0 ↔ w.Idle x y := by
  constructor
  · intro hz d hw
    have hall := (Finset.sum_eq_zero_iff_of_nonneg (fun k _ => sub_nonneg.2 (amount_mono (w := w) h))).1 hz
    have hterm : w.amount d y - w.amount d x = 0 := by
      by_cases hin : d ∈ Finset.Icc (w.dayOf x) (w.dayOf y)
      · exact hall d hin
      · rw [Finset.mem_Icc, not_and_or, not_le, not_le] at hin
        rcases hin with hout | hout
        · rw [amount_after (closeOn_le hout), amount_after ((closeOn_le hout).trans h), sub_self]
        · rw [amount_before (le_openOn hout), amount_before (h.trans (le_openOn hout)), sub_self]
    rw [amount_sub hw h] at hterm
    omega
  · intro hidle
    refine Finset.sum_eq_zero (fun d _ => ?_)
    rcases hw : w.works d with _ | _
    · unfold Windows.amount
      rw [hw]
      simp
    · rw [amount_sub hw h]
      have := hidle d hw
      omega

theorem openOn_le_closeOn : w.openOn d ≤ w.closeOn d := by
  have := w.opens_lt
  unfold Windows.openOn Windows.closeOn
  omega

theorem openOn_le {e : Int} (h : d ≤ e) : w.openOn d ≤ w.openOn e := by
  have := Int.mul_le_mul_of_nonneg_right h (length_pos (w := w)).le
  unfold Windows.openOn
  omega

theorem closeOn_mono {e : Int} (h : d ≤ e) : w.closeOn d ≤ w.closeOn e := by
  have := Int.mul_le_mul_of_nonneg_right h (length_pos (w := w)).le
  unfold Windows.closeOn
  omega

theorem idle_open (h : ∀ j, j < d → w.works j = true → w.closeOn j ≤ x) : w.Idle x (w.openOn d) := by
  intro j hj
  by_cases hlt : j < d
  · exact (min_le_right _ _).trans ((h j hlt hj).trans (le_max_left _ _))
  · exact (min_le_left _ _).trans ((openOn_le (not_lt.1 hlt)).trans (le_max_right _ _))

theorem idle_close (h : ∀ j, d < j → w.works j = true → x ≤ w.openOn j) : w.Idle (w.closeOn d) x := by
  intro j hj
  by_cases hlt : d < j
  · exact (min_le_left _ _).trans ((h j hlt hj).trans (le_max_right _ _))
  · exact (min_le_right _ _).trans ((closeOn_mono (not_lt.1 hlt)).trans (le_max_left _ _))

theorem work_within (hw : w.works d = true) (hx : w.openOn d ≤ x) (h : x ≤ y) (hy : y ≤ w.closeOn d) :
    w.work x y = y - x := by
  have hdx : w.dayOf x = d := dayOf_in hx (h.trans hy)
  have hdy : w.dayOf y = d := dayOf_in (hx.trans h) hy
  unfold Windows.work
  rw [hdx, hdy, Finset.Icc_self, Finset.sum_singleton, amount_sub hw h]
  omega

/-! ## Spans cut short -/

def Windows.cut (w : Windows) (days x : Int) : Int := (w.dayOf x + days) * w.length

theorem dayOf_cut (days x : Int) : w.dayOf (w.cut days x) = w.dayOf x + days :=
  Int.mul_ediv_cancel _ length_pos.ne'

theorem lt_cut (hdays : 1 ≤ days) (x : Int) : x < w.cut days x := by
  have h1 := lt_dayOf_succ (w := w) x
  have h2 : (w.dayOf x + 1) * w.length ≤ (w.dayOf x + days) * w.length :=
    Int.mul_le_mul_of_nonneg_right (by omega) length_pos.le
  exact h1.trans_le h2

theorem cut_mono {days x y : Int} (h : x ≤ y) : w.cut days x ≤ w.cut days y :=
  Int.mul_le_mul_of_nonneg_right (by have := dayOf_le (w := w) h; omega) length_pos.le

/-- **Working time summed over so many days alone** is that of the span cut short after them. -/
theorem work_cut (hdays : 1 ≤ days) (h : x ≤ y) :
    ∑ d ∈ Finset.Icc (w.dayOf x) (min (w.dayOf y) (w.dayOf x + days - 1)), (w.amount d y - w.amount d x) =
      w.work x (min y (w.cut days x)) := by
  by_cases hcut : y ≤ w.cut days x
  · rw [min_eq_left hcut]
    have hle : w.dayOf y ≤ w.dayOf x + days := by
      have h1 := dayOf_le (w := w) hcut
      rwa [dayOf_cut] at h1
    by_cases hlast : w.dayOf y ≤ w.dayOf x + days - 1
    · rw [min_eq_left hlast]
      rfl
    · -- the span ends with the day's first instant, before its window
      have hday : w.dayOf y = w.dayOf x + days := by omega
      rw [min_eq_right (by omega), Windows.work, hday]
      refine Finset.sum_subset (Finset.Icc_subset_Icc le_rfl (by omega)) (fun k hk hout => ?_)
      rw [Finset.mem_Icc] at hk hout
      have hkd : k = w.dayOf x + days := by omega
      have hopen : y ≤ w.openOn k := by
        have := w.opens_nonneg
        rw [hkd]
        unfold Windows.openOn
        unfold Windows.cut at hcut
        omega
      rw [amount_before hopen, amount_before (h.trans hopen), sub_self]
  · rw [not_le] at hcut
    have hle : w.dayOf x + days ≤ w.dayOf y := by
      have h1 := dayOf_le (w := w) hcut.le
      rwa [dayOf_cut] at h1
    have hxc := (lt_cut (w := w) hdays x).le
    rw [min_eq_right hcut.le, min_eq_right (by omega), Windows.work, dayOf_cut]
    rw [← Finset.sum_subset (Finset.Icc_subset_Icc le_rfl (show w.dayOf x + days - 1 ≤ w.dayOf x + days by omega))]
    · -- by the cut the windows of the days before it have closed
      refine Finset.sum_congr rfl (fun k hk => ?_)
      rw [Finset.mem_Icc] at hk
      rw [amount_after (closeOn_le (by omega)),
        amount_after (closeOn_le (x := w.cut days x) (by rw [dayOf_cut]; omega))]
    · intro k hk hout
      rw [Finset.mem_Icc] at hk hout
      have hkd : k = w.dayOf x + days := by omega
      have hopen : w.cut days x ≤ w.openOn k := by
        have := w.opens_nonneg
        rw [hkd]
        unfold Windows.openOn Windows.cut
        omega
      rw [amount_before hopen, amount_before (hxc.trans hopen), sub_self]

/-- **Two spans that follow one another, each cut short**, come to their whole, cut short, where no working time is left
to the second that the whole has lost. -/
theorem cut_add {p q r : Int} (hdays : 1 ≤ days) (hpq : p ≤ q) (hqr : q ≤ r) :
    w.work p (min q (w.cut days p)) + w.work q (min r (w.cut days q)) = w.work p (min r (w.cut days p)) ↔
      w.Idle (max q (w.cut days p)) (min r (w.cut days q)) := by
  have hp := (lt_cut (w := w) hdays p).le
  have hq := (lt_cut (w := w) hdays q).le
  have hcut := @cut_mono w days _ _ hpq
  by_cases hr : r ≤ w.cut days p
  · -- nothing is cut
    rw [min_eq_left (hqr.trans hr), min_eq_left hr, min_eq_left (hr.trans hcut), ← work_add hpq hqr]
    refine iff_of_true rfl (fun d _ => ?_)
    exact ((min_le_left _ _).trans (hr.trans (le_max_right _ _))).trans (le_max_left _ _)
  rw [not_le] at hr
  have hle : max q (w.cut days p) ≤ min r (w.cut days q) := max_le (le_min hqr hq) (le_min hr.le hcut)
  rw [← work_eq_zero hle, min_eq_right hr.le]
  by_cases hqc : q ≤ w.cut days p
  · rw [min_eq_left hqc, max_eq_right hqc, work_add hqc (le_min hr.le hcut), work_add hpq hqc]
    constructor <;> intro h <;> linarith
  · rw [not_le] at hqc
    rw [min_eq_right hqc.le, max_eq_left hqc.le]
    constructor <;> intro h <;> linarith

end WorkingTime
end Gbasic
