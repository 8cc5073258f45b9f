import Gbasic.BusinessHours
/-!
# BusinessHoursRound — business hours added and measured

A calendar's hours are windows in its days, and both functions are about the working time in them.  What is added is the
working time to the answer, however far it walks; what is measured is that of the span cut short after 10000 calendar
days.  So they agree, and measuring adds up, where the cut loses no working time.
-/
namespace Gbasic
namespace BusinessHours

open Dates (Duration durationTotals)
open WorkingTime (Windows)
open WorkingTime (dayOf_in openOn_le_closeOn idle_open closeOn_le idle_close le_openOn work_eq_zero work_self
  work_within work_add work_anti work_cut lt_cut work_mono dayOf_cut cut_add)

variable {d r a b : Moment} {x m : Int} {dur : Duration}

def windows (cal : Cal) (h : Hours) : Windows where
  length := 86400
  opens := h.opens
  closes := h.closes
  works := fun n => isBusinessDay cal ⟨n * 86400, false⟩
  opens_nonneg := h.opens_nonneg
  opens_lt := h.opens_lt
  closes_lt := h.closes_lt

def dayStart (n : Int) : Moment := ⟨n * 86400, false⟩

section
variable {cal : Cal} {h : Hours}

theorem dayLens_eq (d : Moment) : dayLens d = dayStart ((windows cal h).dayOf d.count) := rfl

theorem dayStart_day (n : Int) : (windows cal h).dayOf (dayStart n).count = n :=
  Int.mul_ediv_cancel n (by decide : (86400 : Int) ≠ 0)

theorem isBusinessDay_eq (d : Moment) :
    isBusinessDay cal d = (windows cal h).works ((windows cal h).dayOf d.count) := by
  have hday : dayLens (dayLens d) = dayLens d := by
    rw [@dayLens_eq cal h (dayLens d), @dayLens_eq cal h d, dayStart_day]
  change isBusinessDay cal d = isBusinessDay cal (dayLens d)
  unfold isBusinessDay
  rw [hday]

theorem dayOpen_count (d : Moment) :
    (dayOpen h d).count = (windows cal h).openOn ((windows cal h).dayOf d.count) := rfl

theorem dayClose_count (d : Moment) :
    (dayClose h d).count = (windows cal h).closeOn ((windows cal h).dayOf d.count) := rfl

theorem dayStart_plus (n k : Int) : (dayStart n).plus (86400 * k) = dayStart (n + k) := by
  unfold Moment.plus dayStart
  rw [Int.mul_emod_right, Int.add_mul, Int.mul_comm k]
  rfl

theorem dayStart_before (n k : Int) : (dayStart n).before (dayStart k) = decide (n < k) := by
  unfold Moment.before dayStart
  simp

end

theorem Moment.le_of_before (h : a.before b = true) : a.count ≤ b.count := by
  unfold Moment.before at h
  simp only [Bool.or_eq_true, decide_eq_true_eq, Bool.and_eq_true] at h
  rcases h with h | ⟨⟨h, -⟩, -⟩ <;> omega

theorem Moment.le_of_not_before (h : ¬ a.before b = true) : b.count ≤ a.count := by
  unfold Moment.before at h
  simp only [Bool.or_eq_true, decide_eq_true_eq, not_or] at h
  omega

/-! ## The steps to another business day -/

section
variable {cal : Cal} {h : Hours}

theorem stepLoop_ok {direction : Int} : ∀ {n : Nat} {d : Int} {r : Moment},
    stepLoop cal direction n (dayStart d) = .ok r →
      ∃ i : Nat, 1 ≤ i ∧ r = dayStart (d + direction * i) ∧ (windows cal h).works (d + direction * i) = true ∧
        ∀ j : Nat, 1 ≤ j → j < i → (windows cal h).works (d + direction * j) = false
  | 0, _, _, hr => by
    unfold stepLoop at hr
    cases hr
  | n + 1, d, r, hr => by
    unfold stepLoop at hr
    rw [dayStart_plus] at hr
    by_cases hw : (windows cal h).works (d + direction) = true
    · have hb : isBusinessDay cal (dayStart (d + direction)) = true := hw
      simp only [hb, if_true, Except.ok.injEq] at hr
      refine ⟨1, le_rfl, ?_, ?_, fun j h1 h2 => by omega⟩
      · rw [← hr, Nat.cast_one, mul_one]
      · rw [Nat.cast_one, mul_one]
        exact hw
    · have hb : ¬ isBusinessDay cal (dayStart (d + direction)) = true := hw
      simp only [hb] at hr
      obtain ⟨i, hi, rfl, hworks, hgap⟩ := stepLoop_ok hr
      have hstep : ∀ k : Nat, d + direction + direction * k = d + direction * (k + 1 : Nat) := by
        intro k
        push_cast
        ring
      rw [hstep] at hworks ⊢
      refine ⟨i + 1, by omega, rfl, hworks, fun j h1 h2 => ?_⟩
      rcases j with _ | _ | j
      · omega
      · rw [zero_add, Nat.cast_one, mul_one]
        exact eq_false_of_ne_true hw
      · rw [← hstep]
        exact hgap (j + 1) (by omega) (by omega)

theorem nextBusinessDay_ok (hr : nextBusinessDay cal d = .ok r) :
    ∃ m, (windows cal h).dayOf d.count < m ∧ r = dayStart m ∧ (windows cal h).works m = true ∧
      ∀ j, (windows cal h).dayOf d.count < j → j < m → (windows cal h).works j = false := by
  obtain ⟨i, hi, rfl, hworks, hgap⟩ := stepLoop_ok (h := h) hr
  refine ⟨_, ?_, rfl, hworks, fun j h1 h2 => ?_⟩
  · change d.count / 86400 < d.count / 86400 + 1 * i
    omega
  · change d.count / 86400 < j at h1
    have hj : j = d.count / 86400 + 1 * ((j - d.count / 86400).toNat : Int) := by omega
    rw [hj]
    exact hgap _ (by omega) (by omega)

theorem previousBusinessDay_ok (hr : previousBusinessDay cal d = .ok r) :
    ∃ m, m < (windows cal h).dayOf d.count ∧ r = dayStart m ∧ (windows cal h).works m = true ∧
      ∀ j, m < j → j < (windows cal h).dayOf d.count → (windows cal h).works j = false := by
  obtain ⟨i, hi, rfl, hworks, hgap⟩ := stepLoop_ok (h := h) hr
  refine ⟨_, ?_, rfl, hworks, fun j h1 h2 => ?_⟩
  · change d.count / 86400 + (0 - 1) * i < d.count / 86400
    omega
  · change j < d.count / 86400 at h2
    have hj : j = d.count / 86400 + (0 - 1) * ((d.count / 86400 - j).toNat : Int) := by omega
    rw [hj]
    exact hgap _ (by omega) (by omega)

end

/-! ## Adding -/

/-- Within the window of a business day, its ends included. -/
def InHours (cal : Cal) (h : Hours) (d : Moment) : Prop :=
  isBusinessDay cal d = true ∧ (dayOpen h d).count ≤ d.count ∧ d.count ≤ (dayClose h d).count

section
variable {cal : Cal} {h : Hours}

theorem inHours_of (hm : (windows cal h).works m = true) (h1 : (windows cal h).openOn m ≤ d.count)
    (h2 : d.count ≤ (windows cal h).closeOn m) : InHours cal h d := by
  have hday : (windows cal h).dayOf d.count = m := dayOf_in h1 h2
  refine ⟨?_, ?_, ?_⟩
  · rw [isBusinessDay_eq (h := h), hday]
    exact hm
  · rw [@dayOpen_count cal _, hday]
    exact h1
  · rw [@dayClose_count cal _, hday]
    exact h2

theorem open_inHours (hw : (windows cal h).works ((windows cal h).dayOf d.count) = true) :
    InHours cal h (dayOpen h d) :=
  inHours_of hw le_rfl openOn_le_closeOn

theorem close_inHours (hw : (windows cal h).works ((windows cal h).dayOf d.count) = true) :
    InHours cal h (dayClose h d) :=
  inHours_of hw openOn_le_closeOn le_rfl

theorem idle_next
    (hlast : (windows cal h).works ((windows cal h).dayOf x) = true →
      (windows cal h).closeOn ((windows cal h).dayOf x) ≤ x)
    (hgap : ∀ j, (windows cal h).dayOf x < j → j < m → (windows cal h).works j = false) :
    (windows cal h).Idle x ((windows cal h).openOn m) := by
  refine idle_open (fun j hj hw => ?_)
  rcases lt_trichotomy j ((windows cal h).dayOf x) with hlt | rfl | hgt
  · exact closeOn_le hlt
  · exact hlast hw
  · rw [hgap j hgt hj] at hw
    cases hw

theorem idle_previous
    (hfirst : (windows cal h).works ((windows cal h).dayOf x) = true →
      x ≤ (windows cal h).openOn ((windows cal h).dayOf x))
    (hgap : ∀ j, m < j → j < (windows cal h).dayOf x → (windows cal h).works j = false) :
    (windows cal h).Idle ((windows cal h).closeOn m) x := by
  refine idle_close (fun j hj hw => ?_)
  rcases lt_trichotomy j ((windows cal h).dayOf x) with hlt | rfl | hgt
  · rw [hgap j hj hlt] at hw
    cases hw
  · exact hfirst hw
  · exact le_openOn hgt

theorem next_open (hr : nextBusinessDay cal d = .ok r)
    (hday : (windows cal h).dayOf x = (windows cal h).dayOf d.count)
    (hlast : isBusinessDay cal d = true → (dayClose h d).count ≤ x) :
    InHours cal h (dayOpen h r) ∧ x ≤ (dayOpen h r).count ∧ (windows cal h).work x (dayOpen h r).count = 0 := by
  obtain ⟨m, hlt, rfl, hworks, hgap⟩ := nextBusinessDay_ok (h := h) hr
  rw [isBusinessDay_eq (h := h), @dayClose_count cal _, ← hday] at hlast
  rw [← hday] at hlt hgap
  rw [@dayOpen_count cal _, dayStart_day]
  have hle : x ≤ (windows cal h).openOn m := le_openOn hlt
  exact ⟨open_inHours (by rwa [dayStart_day]), hle, (work_eq_zero hle).2 (idle_next hlast hgap)⟩

theorem previous_close (hr : previousBusinessDay cal d = .ok r)
    (hday : (windows cal h).dayOf x = (windows cal h).dayOf d.count)
    (hfirst : isBusinessDay cal d = true → x ≤ (dayOpen h d).count) :
    InHours cal h (dayClose h r) ∧ (dayClose h r).count ≤ x ∧ (windows cal h).work (dayClose h r).count x = 0 := by
  obtain ⟨m, hlt, rfl, hworks, hgap⟩ := previousBusinessDay_ok (h := h) hr
  rw [isBusinessDay_eq (h := h), @dayOpen_count cal _, ← hday] at hfirst
  rw [← hday] at hlt hgap
  rw [@dayClose_count cal _, dayStart_day]
  have hle : (windows cal h).closeOn m ≤ x := closeOn_le hlt
  exact ⟨close_inHours (by rwa [dayStart_day]), hle, (work_eq_zero hle).2 (idle_previous hfirst hgap)⟩

theorem clockForward_ok (hr : clockForward cal h d = .ok r) :
    InHours cal h r ∧ d.count ≤ r.count ∧ (windows cal h).work d.count r.count = 0 := by
  unfold clockForward at hr
  split_ifs at hr with h1 h2
  · -- the day's window opens later
    obtain rfl := Except.ok.inj hr
    have hw := h1.1
    rw [isBusinessDay_eq (h := h)] at hw
    have hle := Moment.le_of_before h1.2
    exact ⟨open_inHours hw, hle, (work_eq_zero hle).2
      (idle_open (fun j hj _ => closeOn_le hj))⟩
  · obtain rfl := Except.ok.inj hr
    have hopen : ¬ d.before (dayOpen h d) = true := fun hb => h1 ⟨h2.1, hb⟩
    exact ⟨⟨h2.1, Moment.le_of_not_before hopen, Moment.le_of_before h2.2⟩, le_rfl, work_self _⟩
  · rcases hn : nextBusinessDay cal d with e | next
    · rw [hn] at hr
      cases hr
    · rw [hn] at hr
      obtain rfl := Except.ok.inj hr
      exact next_open hn rfl (fun hb => Moment.le_of_not_before (fun hc => h2 ⟨hb, hc⟩))

theorem clockBackward_ok (hr : clockBackward cal h d = .ok r) :
    InHours cal h r ∧ r.count ≤ d.count ∧ (windows cal h).work r.count d.count = 0 := by
  unfold clockBackward at hr
  split_ifs at hr with h1 h2
  · -- the day's window closed earlier
    obtain rfl := Except.ok.inj hr
    have hw := h1.1
    rw [isBusinessDay_eq (h := h)] at hw
    have hle := Moment.le_of_before h1.2
    exact ⟨close_inHours hw, hle, (work_eq_zero hle).2
      (idle_close (fun j hj _ => le_openOn hj))⟩
  · obtain rfl := Except.ok.inj hr
    have hclose : ¬ (dayClose h d).before d = true := fun hb => h1 ⟨h2.1, hb⟩
    exact ⟨⟨h2.1, Moment.le_of_before h2.2, Moment.le_of_not_before hclose⟩, le_rfl, work_self _⟩
  · rcases hn : previousBusinessDay cal d with e | before
    · rw [hn] at hr
      cases hr
    · rw [hn] at hr
      obtain rfl := Except.ok.inj hr
      exact previous_close hn rfl (fun hb => Moment.le_of_not_before (fun hc => h2 ⟨hb, hc⟩))

theorem InHours.work_close (hd : InHours cal h d) (h1 : d.count ≤ x) (h2 : x ≤ (dayClose h d).count) :
    (windows cal h).work d.count x = x - d.count := by
  have hw := hd.1
  rw [isBusinessDay_eq (h := h)] at hw
  exact work_within hw hd.2.1 h1 h2

theorem InHours.work_open (hd : InHours cal h d) (h1 : (dayOpen h d).count ≤ x) (h2 : x ≤ d.count) :
    (windows cal h).work x d.count = d.count - x := by
  have hw := hd.1
  rw [isBusinessDay_eq (h := h)] at hw
  exact work_within hw h1 h2 hd.2.2

theorem InHours.close (hd : InHours cal h d) (h1 : d.count ≤ r.count) (h2 : r.count ≤ (dayClose h d).count) :
    InHours cal h r := by
  have hw := hd.1
  rw [isBusinessDay_eq (h := h)] at hw
  exact inHours_of hw (hd.2.1.trans h1) h2

theorem InHours.open (hd : InHours cal h d) (h1 : (dayOpen h d).count ≤ r.count) (h2 : r.count ≤ d.count) :
    InHours cal h r := by
  have hw := hd.1
  rw [isBusinessDay_eq (h := h)] at hw
  exact inHours_of hw h1 (h2.trans hd.2.2)

/-- **The walk forwards ends so much working time later**, within a window. -/
theorem walkForward_ok : ∀ {n : Nat} {cur r : Moment} {remaining : Int}, InHours cal h cur → 0 ≤ remaining →
    walkForward cal h n cur remaining = .ok r →
      InHours cal h r ∧ cur.count ≤ r.count ∧ (windows cal h).work cur.count r.count = remaining
  | 0, _, _, _, _, _, hr => by
    unfold walkForward at hr
    cases hr
  | n + 1, cur, r, remaining, hcur, hrem, hr => by
    unfold walkForward at hr
    by_cases hroom : remaining ≤ (dayClose h cur).count - cur.count
    · simp only [hroom, if_true, Except.ok.injEq] at hr
      have hcount : r.count = cur.count + remaining := by rw [← hr]; rfl
      have h1 : cur.count ≤ r.count := by omega
      have h2 : r.count ≤ (dayClose h cur).count := by omega
      refine ⟨hcur.close h1 h2, h1, ?_⟩
      rw [hcur.work_close h1 h2]
      omega
    · simp only [hroom, if_false] at hr
      rcases hn : nextBusinessDay cal cur with e | next
      · rw [hn] at hr
        cases hr
      · rw [hn] at hr
        -- what is left of the window is used up, and nothing counts until the next one
        have hroom0 := hcur.2.2
        have hclose := hcur.work_close hroom0 le_rfl
        obtain ⟨hin, hle, hidle⟩ := next_open (x := (dayClose h cur).count) hn
          (dayOf_in openOn_le_closeOn le_rfl) (fun _ => le_rfl)
        obtain ⟨hr1, hr2, hr3⟩ := walkForward_ok hin (by omega) hr
        refine ⟨hr1, hroom0.trans (hle.trans hr2), ?_⟩
        rw [work_add hroom0 (hle.trans hr2), work_add hle hr2, hclose, hidle, hr3]
        omega

/-- **The walk backwards ends so much working time earlier**, within a window, and as late as may be. -/
theorem walkBackward_ok : ∀ {n : Nat} {cur r : Moment} {remaining : Int}, InHours cal h cur → 0 < remaining →
    walkBackward cal h n cur remaining = .ok r →
      InHours cal h r ∧ r.count ≤ cur.count ∧ (windows cal h).work r.count cur.count = remaining ∧
        ∀ x, r.count < x → x ≤ cur.count → (windows cal h).work x cur.count < remaining
  | 0, _, _, _, _, _, hr => by
    unfold walkBackward at hr
    cases hr
  | n + 1, cur, r, remaining, hcur, hrem, hr => by
    unfold walkBackward at hr
    by_cases hroom : remaining ≤ cur.count - (dayOpen h cur).count
    · simp only [hroom, if_true, Except.ok.injEq] at hr
      have hcount : r.count = cur.count + -remaining := by rw [← hr]; rfl
      have h1 : (dayOpen h cur).count ≤ r.count := by omega
      have h2 : r.count ≤ cur.count := by omega
      refine ⟨hcur.open h1 h2, h2, ?_, fun x hx hx' => ?_⟩
      · rw [hcur.work_open h1 h2]
        omega
      · rw [hcur.work_open (h1.trans hx.le) hx']
        omega
    · simp only [hroom, if_false] at hr
      rcases hn : previousBusinessDay cal cur with e | before
      · rw [hn] at hr
        cases hr
      · rw [hn] at hr
        have hroom0 := hcur.2.1
        have hopen := hcur.work_open le_rfl hroom0
        obtain ⟨hin, hle, hidle⟩ := previous_close (x := (dayOpen h cur).count) hn
          (dayOf_in le_rfl openOn_le_closeOn) (fun _ => le_rfl)
        obtain ⟨hr1, hr2, hr3, hlate⟩ := walkBackward_ok hin (by omega) hr
        have hsince : (windows cal h).work (dayClose h before).count cur.count = cur.count - (dayOpen h cur).count := by
          rw [work_add hle hroom0, hidle, hopen, zero_add]
        refine ⟨hr1, hr2.trans (hle.trans hroom0), ?_, fun x hx hx' => ?_⟩
        · rw [work_add hr2 (hle.trans hroom0), hr3, hsince]
          omega
        · rcases le_total x (dayClose h before).count with hb | hb
          · have := hlate x hx hb
            rw [work_add hb (hle.trans hroom0), hsince]
            omega
          · have := work_anti (w := windows cal h) hb hx'
            omega

theorem addBusinessHours_ok (hh : cal.hours = some h) (hr : addBusinessHours cal d dur = .ok r) :
    (0 ≤ (durationTotals dur).2 ∧ ∃ cur, clockForward cal h d = .ok cur ∧
      walkForward cal h 10000 cur (durationTotals dur).2 = .ok r) ∨
    ((durationTotals dur).2 < 0 ∧ ∃ cur, clockBackward cal h d = .ok cur ∧
      walkBackward cal h 10000 cur (0 - (durationTotals dur).2) = .ok r) := by
  unfold addBusinessHours needHours at hr
  rw [hh] at hr
  simp only at hr
  split_ifs at hr with hexact hsign
  · rcases hc : clockForward cal h d with e | cur
    · rw [hc] at hr
      cases hr
    · rw [hc] at hr
      exact .inl ⟨hsign, cur, rfl, hr⟩
  · rcases hc : clockBackward cal h d with e | cur
    · rw [hc] at hr
      cases hr
    · rw [hc] at hr
      exact .inr ⟨not_le.1 hsign, cur, rfl, hr⟩

theorem add_forward (hh : cal.hours = some h) (hr : addBusinessHours cal d dur = .ok r)
    (hsign : 0 ≤ (durationTotals dur).2) :
    InHours cal h r ∧ d.count ≤ r.count ∧ (windows cal h).work d.count r.count = (durationTotals dur).2 := by
  rcases addBusinessHours_ok hh hr with ⟨-, cur, hc, hw⟩ | ⟨hneg, -⟩
  · obtain ⟨hin, hle, hidle⟩ := clockForward_ok hc
    obtain ⟨hr1, hr2, hr3⟩ := walkForward_ok hin hsign hw
    refine ⟨hr1, hle.trans hr2, ?_⟩
    rw [work_add hle hr2, hidle, hr3, zero_add]
  · omega

theorem add_backward (hh : cal.hours = some h) (hr : addBusinessHours cal d dur = .ok r)
    (hsign : (durationTotals dur).2 < 0) :
    InHours cal h r ∧ r.count ≤ d.count ∧ (windows cal h).work r.count d.count = -(durationTotals dur).2 ∧
      ∀ x, r.count < x → x ≤ d.count → (windows cal h).work x d.count < -(durationTotals dur).2 := by
  rcases addBusinessHours_ok hh hr with ⟨hpos, -⟩ | ⟨-, cur, hc, hw⟩
  · omega
  · obtain ⟨hin, hle, hidle⟩ := clockBackward_ok hc
    obtain ⟨hr1, hr2, hr3, hlate⟩ := walkBackward_ok hin (by omega) hw
    refine ⟨hr1, hr2.trans hle, ?_, fun x hx hx' => ?_⟩
    · rw [work_add hr2 hle, hidle, hr3]
      omega
    · rcases le_total x cur.count with hb | hb
      · have := hlate x hx hb
        rw [work_add hb hle, hidle]
        omega
      · have := work_anti (w := windows cal h) hb hx'
        omega

end

/-! ## Measuring -/

section
variable {cal : Cal} {h : Hours}

theorem overlap (x y : Moment) : (if x.before y then y.count - x.count else 0) = max 0 (y.count - x.count) := by
  split_ifs with hc
  · rw [max_eq_right (sub_nonneg.2 (Moment.le_of_before hc))]
  · rw [max_eq_left (sub_nonpos.2 (Moment.le_of_not_before hc))]

theorem dayPiece_eq (hab : a.count ≤ b.count) (k : Int) :
    dayPiece cal h a b (dayStart k) = (windows cal h).amount k b.count - (windows cal h).amount k a.count := by
  unfold dayPiece
  by_cases hw : (windows cal h).works k = true
  · have hb : isBusinessDay cal (dayStart k) = true := hw
    have hopen : (dayOpen h (dayStart k)).count = (windows cal h).openOn k := by
      rw [@dayOpen_count cal _, dayStart_day]
    have hclose : (dayClose h (dayStart k)).count = (windows cal h).closeOn k := by
      rw [@dayClose_count cal _, dayStart_day]
    have hstart : (if (dayOpen h (dayStart k)).before a then a else dayOpen h (dayStart k)).count =
        max a.count ((windows cal h).openOn k) := by
      by_cases hc : (dayOpen h (dayStart k)).before a = true
      · rw [if_pos hc, max_eq_left (hopen ▸ Moment.le_of_before hc)]
      · rw [if_neg hc, hopen, max_eq_right (hopen ▸ Moment.le_of_not_before hc)]
    have hstop : (if b.before (dayClose h (dayStart k)) then b else dayClose h (dayStart k)).count =
        min b.count ((windows cal h).closeOn k) := by
      by_cases hc : b.before (dayClose h (dayStart k)) = true
      · rw [if_pos hc, min_eq_left (hclose ▸ Moment.le_of_before hc)]
      · rw [if_neg hc, hclose, min_eq_right (hclose ▸ Moment.le_of_not_before hc)]
    rw [if_pos hb, WorkingTime.amount_sub hw hab, ← hstart, ← hstop, ← overlap]
  · have hb : ¬ isBusinessDay cal (dayStart k) = true := hw
    rw [if_neg hb]
    unfold Windows.amount
    rw [if_neg hw, if_neg hw, sub_self]

theorem sumDays_eq {a b : Moment} (hab : a.count ≤ b.count) (last : Int) : ∀ (n : Nat) (k : Int),
    sumDays cal h a b (dayStart last) n (dayStart k) = ∑ j ∈ Finset.Icc k (min last (k + n - 1)),
      ((windows cal h).amount j b.count - (windows cal h).amount j a.count)
  | 0, k => by
    rw [Finset.Icc_eq_empty (by omega)]
    rfl
  | n + 1, k => by
    unfold sumDays
    rw [dayStart_before]
    by_cases hlt : last < k
    · rw [decide_eq_true hlt, if_pos rfl, Finset.Icc_eq_empty (by omega)]
      rfl
    · rw [decide_eq_false hlt, if_neg Bool.false_ne_true, dayPiece_eq hab, ← mul_one (86400 : Int), dayStart_plus,
        sumDays_eq hab last n (k + 1)]
      rw [← Finset.sum_Ioc_add_eq_sum_Icc (by omega : k ≤ min last (k + ((n + 1 : Nat) : Int) - 1)), add_comm]
      congr 1
      refine Finset.sum_congr (Finset.ext (fun j => ?_)) (fun _ _ => rfl)
      rw [Finset.mem_Icc, Finset.mem_Ioc]
      omega

theorem sumDays_work (hab : a.count ≤ b.count) : sumDays cal h a b (dayLens b) 10000 (dayLens a) =
      (windows cal h).work a.count (min b.count ((windows cal h).cut 10000 a.count)) := by
  rw [@dayLens_eq cal h, @dayLens_eq cal h, sumDays_eq hab,
    ← work_cut (by decide) hab]
  rfl

theorem businessHoursBetween_eq (hh : cal.hours = some h) (a b : Moment) : businessHoursBetween cal a b =
    .ok (if b.before a then 0 - sumDays cal h b a (dayLens a) 10000 (dayLens b)
      else sumDays cal h a b (dayLens b) 10000 (dayLens a)) := by
  unfold businessHoursBetween needHours
  rw [hh]
  rfl

theorem work_cut_self (x : Int) : (windows cal h).work x (min x ((windows cal h).cut 10000 x)) = 0 := by
  rw [min_eq_left (lt_cut (by decide) x).le, work_self]

theorem between_forward (hh : cal.hours = some h) (hab : a.count ≤ b.count) : businessHoursBetween cal a b =
      .ok ((windows cal h).work a.count (min b.count ((windows cal h).cut 10000 a.count))) := by
  rw [businessHoursBetween_eq hh]
  split_ifs with hc
  · -- a day and the instant it starts with
    have heq : a.count = b.count := le_antisymm hab (Moment.le_of_before hc)
    rw [sumDays_work heq.ge, heq, work_cut_self, sub_zero]
  · rw [sumDays_work hab]

theorem between_backward (hh : cal.hours = some h) (hba : b.count ≤ a.count) : businessHoursBetween cal a b =
      .ok (-(windows cal h).work b.count (min a.count ((windows cal h).cut 10000 b.count))) := by
  by_cases hc : b.before a = true
  · rw [businessHoursBetween_eq hh, if_pos hc, sumDays_work hba, zero_sub]
  · have heq : a.count = b.count := le_antisymm (Moment.le_of_not_before hc) hba
    rw [between_forward hh heq.le, heq, work_cut_self, neg_zero]

end

/-! ## Where the two agree -/

/-- The cut leaves out nothing of what is added: from the start forwards, and backwards from a day at most 9999 days
before the last that opens before the start. -/
def Reaches (cal : Cal) (h : Hours) (a seconds : Int) : Prop :=
  if 0 ≤ seconds then seconds ≤ (windows cal h).work a ((windows cal h).cut 10000 a)
  else ∀ d, (windows cal h).works d = true → (windows cal h).openOn d < a →
    -seconds ≤ (windows cal h).work ((d - 9999) * 86400) a

/-- No working time lies between the cut of the whole span and that of its later part. -/
def Balanced (cal : Cal) (h : Hours) (a b c : Int) : Prop :=
  (windows cal h).Idle
    (max (a + b + c - min a (min b c) - max a (max b c)) ((windows cal h).cut 10000 (min a (min b c))))
    (min (max a (max b c)) ((windows cal h).cut 10000 (a + b + c - min a (min b c) - max a (max b c))))

/-- What is measured from one instant to a second and from that to a third is what is measured from the first to it. -/
def Additive (cal : Cal) (a b c : Moment) : Prop :=
  ∃ x y z, businessHoursBetween cal a b = .ok x ∧ businessHoursBetween cal b c = .ok y ∧
    businessHoursBetween cal a c = .ok z ∧ x + y = z

section
variable {cal : Cal} {h : Hours}

theorem forward_iff (hh : cal.hours = some h) (hr : addBusinessHours cal a dur = .ok r)
    (hsign : 0 ≤ (durationTotals dur).2) : businessHoursBetween cal a r = .ok (durationTotals dur).2 ↔
      (durationTotals dur).2 ≤ (windows cal h).work a.count ((windows cal h).cut 10000 a.count) := by
  obtain ⟨-, hle, hwork⟩ := add_forward hh hr hsign
  have hcut := (lt_cut (w := windows cal h) (by decide : (1 : Int) ≤ 10000) a.count).le
  rw [between_forward hh hle, Except.ok.injEq, ← hwork]
  rcases le_total r.count ((windows cal h).cut 10000 a.count) with hr' | hr'
  · rw [min_eq_left hr']
    exact iff_of_true rfl (work_mono hle hr')
  · rw [min_eq_right hr']
    exact ⟨fun heq => heq.ge, fun hge => le_antisymm (work_mono hcut hr') hge⟩

theorem backward_iff (hh : cal.hours = some h) (hr : addBusinessHours cal a dur = .ok r)
    (hsign : (durationTotals dur).2 < 0) : businessHoursBetween cal a r = .ok (durationTotals dur).2 ↔
      ∀ d, (windows cal h).works d = true → (windows cal h).openOn d < a.count →
        -(durationTotals dur).2 ≤ (windows cal h).work ((d - 9999) * 86400) a.count := by
  obtain ⟨-, hle, hwork, hlate⟩ := add_backward hh hr hsign
  have hcut := (lt_cut (w := windows cal h) (by decide : (1 : Int) ≤ 10000) r.count).le
  have hmin := min_le_left a.count ((windows cal h).cut 10000 r.count)
  have hidle : businessHoursBetween cal a r = .ok (durationTotals dur).2 ↔
      (windows cal h).Idle (min a.count ((windows cal h).cut 10000 r.count)) a.count := by
    rw [between_backward hh hle, Except.ok.injEq, ← work_eq_zero hmin]
    rw [work_add (le_min hle hcut) hmin] at hwork
    omega
  have hday : (windows cal h).dayOf r.count * 86400 ≤ r.count := WorkingTime.dayOf_mul_le r.count
  rw [hidle]
  constructor
  · intro hno d hd hopen
    have hd' := hno d hd
    have h1 := (windows cal h).opens_lt
    -- the day's window is not past the cut, so its day is less than 10000 after the answer's
    have hlt : d < (windows cal h).dayOf r.count + 10000 := by
      by_contra hge
      have h2 := WorkingTime.openOn_le (w := windows cal h) (not_lt.1 hge)
      have h3 : (windows cal h).cut 10000 r.count ≤ (windows cal h).openOn ((windows cal h).dayOf r.count + 10000) :=
        le_add_of_nonneg_right (windows cal h).opens_nonneg
      have h4 : (windows cal h).openOn d < (windows cal h).closeOn d := add_lt_add_right h1 _
      rw [max_eq_right ((min_le_right _ _).trans (h3.trans h2))] at hd'
      exact absurd hd' (not_le.2 (lt_min hopen h4))
    rw [← hwork]
    exact work_anti (by omega) hle
  · intro hall d hd
    rcases le_or_gt a.count ((windows cal h).openOn d) with hopen | hopen
    · exact (min_le_left _ _).trans (hopen.trans (le_max_right _ _))
    · have hstart : (d - 9999) * 86400 ≤ r.count := by
        by_contra hgt
        have h1 : (d - 9999) * 86400 ≤ a.count := by
          have h2 := (windows cal h).opens_nonneg
          have h3 : (windows cal h).openOn d = d * 86400 + (windows cal h).opens := rfl
          omega
        have h4 := hlate _ (not_le.1 hgt) h1
        have h5 := hall d hd hopen
        omega
      have hday' : d < (windows cal h).dayOf ((windows cal h).cut 10000 r.count) := by
        rw [dayOf_cut]
        have h6 : (windows cal h).dayOf r.count = r.count / 86400 := rfl
        omega
      exact (min_le_min le_rfl (closeOn_le hday')).trans (le_max_left _ _)

noncomputable def measured (cal : Cal) (h : Hours) (x y : Int) : Int :=
  if x ≤ y then (windows cal h).work x (min y ((windows cal h).cut 10000 x))
  else -(windows cal h).work y (min x ((windows cal h).cut 10000 y))

theorem between_measured (hh : cal.hours = some h) (a b : Moment) :
    businessHoursBetween cal a b = .ok (measured cal h a.count b.count) := by
  unfold measured
  split_ifs with hab
  · exact between_forward hh hab
  · exact between_backward hh (not_le.1 hab).le

theorem measured_swap (x y : Int) : measured cal h x y = -measured cal h y x := by
  unfold measured
  rcases lt_trichotomy x y with hlt | rfl | hgt
  · rw [if_pos hlt.le, if_neg (not_le.2 hlt), neg_neg]
  · rw [if_pos le_rfl, work_cut_self, neg_zero]
  · rw [if_neg (not_le.2 hgt), if_pos hgt.le]

theorem additive_measured (hh : cal.hours = some h) (a b c : Moment) : Additive cal a b c ↔
    measured cal h a.count b.count + measured cal h b.count c.count = measured cal h a.count c.count := by
  constructor
  · rintro ⟨x, y, z, hx, hy, hz, hsum⟩
    rw [between_measured hh, Except.ok.injEq] at hx hy hz
    rw [hx, hy, hz, hsum]
  · exact fun hsum => ⟨_, _, _, between_measured hh a b, between_measured hh b c, between_measured hh a c, hsum⟩

theorem balanced_sorted {p q r : Int} (hpq : p ≤ q) (hqr : q ≤ r) : Balanced cal h p q r ↔
    measured cal h p q + measured cal h q r = measured cal h p r := by
  have hmiddle : p + q + r - p - r = q := by omega
  unfold measured Balanced
  rw [if_pos hpq, if_pos hqr, if_pos (hpq.trans hqr), cut_add (by decide) hpq hqr, min_eq_left hqr,
    min_eq_left hpq, max_eq_right hqr, max_eq_right (hpq.trans hqr), hmiddle]

theorem balanced_swap (a b c : Int) : Balanced cal h a b c ↔ Balanced cal h b a c := by
  unfold Balanced
  rw [min_left_comm, max_left_comm, add_comm a b]

theorem balanced_swap_right (a b c : Int) : Balanced cal h a b c ↔ Balanced cal h a c b := by
  unfold Balanced
  rw [min_comm b c, max_comm b c, add_right_comm]

theorem balanced_iff (a b c : Int) : Balanced cal h a b c ↔
    measured cal h a b + measured cal h b c = measured cal h a c := by
  have hba := @measured_swap cal h b a
  have hcb := @measured_swap cal h c b
  have hca := @measured_swap cal h c a
  rcases le_total a b with hab | hab <;> rcases le_total b c with hbc | hbc
  · exact balanced_sorted hab hbc
  · rcases le_total a c with hac | hac
    · rw [balanced_swap_right, balanced_sorted hac hbc]
      omega
    · rw [balanced_swap_right, balanced_swap, balanced_sorted hac hab]
      omega
  · rcases le_total a c with hac | hac
    · rw [balanced_swap, balanced_sorted hab hac]
      omega
    · rw [balanced_swap, balanced_swap_right, balanced_sorted hbc hac]
      omega
  · rw [balanced_swap, balanced_swap_right, balanced_swap, balanced_sorted hbc hab]
    omega

end

/-! ## Where an addition answers -/

section
variable {cal : Cal} {h : Hours}

def Within (cal : Cal) : Prop := ∀ n : Int, ∃ i : Nat, 1 ≤ i ∧ i ≤ 3700 ∧ isBusinessDay cal (dayStart (n + i)) = true

theorem stepLoop_answers : ∀ {n : Nat} {d : Int},
    (∃ i : Nat, 1 ≤ i ∧ i ≤ n ∧ isBusinessDay cal (dayStart (d + i)) = true) →
      ∃ r, stepLoop cal 1 n (dayStart d) = .ok r
  | 0, _, ⟨i, h1, h2, _⟩ => absurd h2 (by omega)
  | n + 1, d, ⟨i, h1, h2, hb⟩ => by
    unfold stepLoop
    rw [dayStart_plus]
    dsimp only
    split_ifs with hnext
    · exact ⟨_, rfl⟩
    · have hi : i ≠ 1 := by
        rintro rfl
        exact hnext hb
      refine stepLoop_answers ⟨i - 1, by omega, by omega, ?_⟩
      have hday : d + 1 + ((i - 1 : Nat) : Int) = d + i := by omega
      rw [hday]
      exact hb

theorem open_room (cal : Cal) (d : Moment) :
    (dayClose h (dayOpen h d)).count - (dayOpen h d).count = h.closes - h.opens := by
  have hday : (windows cal h).dayOf (dayOpen h d).count = (windows cal h).dayOf d.count :=
    dayOf_in le_rfl openOn_le_closeOn
  rw [@dayClose_count cal _, hday, @dayOpen_count cal _]
  exact add_sub_add_left_eq_sub _ _ _

theorem walkForward_answers (hwithin : Within cal) : ∀ {n : Nat} {cur : Moment} {remaining : Int},
    InHours cal h cur → remaining ≤ (dayClose h cur).count - cur.count + n * (h.closes - h.opens) →
      ∃ r, walkForward cal h (n + 1) cur remaining = .ok r := by
  intro n
  induction n with
  | zero =>
    intro cur remaining _ hrem
    unfold walkForward
    have hroom : remaining ≤ (dayClose h cur).count - cur.count := by omega
    dsimp only
    rw [if_pos hroom]
    exact ⟨_, rfl⟩
  | succ n ih =>
    intro cur remaining hcur hrem
    unfold walkForward
    dsimp only
    split_ifs with hroom
    · exact ⟨_, rfl⟩
    · obtain ⟨next, hn⟩ : ∃ r, nextBusinessDay cal cur = .ok r := stepLoop_answers (hwithin _)
      rw [hn]
      have hin := (next_open (x := (dayClose h cur).count) hn
        (dayOf_in openOn_le_closeOn le_rfl) (fun _ => le_rfl)).1
      apply ih hin
      rw [open_room cal]
      push_cast at hrem
      linarith

theorem add_answers (hwithin : Within cal) (hh : cal.hours = some h) {d : Moment} {dur : Duration}
    (hexact : dur.years = 0 ∧ dur.months = 0) (htime : isBusinessTime cal d = .ok true)
    (hsign : 0 ≤ (durationTotals dur).2)
    (hmuch : (durationTotals dur).2 ≤ (dayClose h d).count - d.count + 9999 * (h.closes - h.opens)) :
    ∃ r, addBusinessHours cal d dur = .ok r := by
  unfold isBusinessTime needHours at htime
  rw [hh] at htime
  have hin := Except.ok.inj htime
  dsimp only at hin
  split_ifs at hin with hday
  rw [Bool.not_eq_false] at hday
  rw [Bool.and_eq_true, Bool.not_eq_true'] at hin
  have hclock : clockForward cal h d = .ok d := by
    unfold clockForward
    rw [if_neg (fun hc => by rw [hin.1] at hc; cases hc.2), if_pos ⟨hday, hin.2⟩]
  have hwalk := walkForward_answers (n := 9999) hwithin
    (⟨hday, Moment.le_of_not_before (by rw [hin.1]; decide), Moment.le_of_before hin.2⟩ : InHours cal h d) hmuch
  unfold addBusinessHours needHours
  rw [hh]
  dsimp only
  rw [if_neg (by rw [hexact.1, hexact.2]; simp), if_pos hsign, hclock]
  exact hwalk

theorem work_cut_lt {x d : Int} (h1 : (windows cal h).dayOf x ≤ d) (h2 : d < (windows cal h).dayOf x + 10000)
    (hd : (windows cal h).works d = false) :
    (windows cal h).work x ((windows cal h).cut 10000 x) < 10000 * (h.closes - h.opens) := by
  have hcut := (lt_cut (w := windows cal h) (by decide : (1 : Int) ≤ 10000) x).le
  have hopen := h.opens_lt
  have hsum := work_cut (w := windows cal h) (by decide : (1 : Int) ≤ 10000) hcut
  rw [min_self, dayOf_cut, min_eq_right (by omega)] at hsum
  rw [← hsum]
  have hcard : ∑ _k ∈ Finset.Icc ((windows cal h).dayOf x) ((windows cal h).dayOf x + 10000 - 1), (h.closes - h.opens) =
      10000 * (h.closes - h.opens) := by
    rw [Finset.sum_const, Int.card_Icc, nsmul_eq_mul]
    congr 1
    omega
  rw [← hcard]
  refine Finset.sum_lt_sum (fun k _ => ?_) ⟨d, Finset.mem_Icc.2 ⟨h1, by omega⟩, ?_⟩
  · exact WorkingTime.amount_sub_le _ _ _
  · unfold Windows.amount
    rw [hd]
    simpa using hopen

end

def nineToFive : Hours := ⟨9 * 3600, 17 * 3600, by decide, by decide, by decide⟩

/-- Nine to five, from Monday to Friday. -/
def office : Cal where
  weekend := [text "sunday", text "saturday"]
  holidays := []
  hours := some nineToFive

/-- Nine o'clock on Monday the third of January 2000. -/
def monday : Moment := ⟨730122 * 86400 + 9 * 3600, true⟩

theorem office_days (n : Int) : isBusinessDay office (dayStart n) = true ↔ n % 7 ≠ 0 ∧ n % 7 ≠ 6 := by
  have hday : dayLens (dayStart n) = dayStart n := by
    rw [@dayLens_eq office nineToFive, dayStart_day]
  have hname : dayname (dayStart n) = dayNames.getD (n % 7).toNat [] := by
    unfold dayname dayStart
    rw [Int.mul_ediv_cancel _ (by decide)]
  have hmod : n % 7 = 0 ∨ n % 7 = 1 ∨ n % 7 = 2 ∨ n % 7 = 3 ∨ n % 7 = 4 ∨ n % 7 = 5 ∨ n % 7 = 6 := by omega
  have hholiday : dayStart n ∉ office.holidays := List.not_mem_nil
  unfold isBusinessDay
  rw [hday]
  dsimp only
  rw [hname, if_neg hholiday]
  rcases hmod with h | h | h | h | h | h | h <;> rw [h] <;> decide

theorem office_within : Within office := by
  intro n
  by_cases hn : n % 7 = 5
  · exact ⟨3, by decide, by decide, (office_days _).2 (by omega)⟩
  · by_cases hn' : n % 7 = 6
    · exact ⟨2, by decide, by decide, (office_days _).2 (by omega)⟩
    · exact ⟨1, by decide, by decide, (office_days _).2 (by omega)⟩

/-- The same, closed on the next Monday. -/
def closedMonday : Cal := { office with holidays := [dayLens (monday.plus (7 * 86400))] }

/-- Four o'clock on Friday, and ten on the Tuesday after. -/
def friday : Moment := monday.plus (4 * 86400 + 7 * 3600)
def tuesday : Moment := monday.plus (8 * 86400 + 3600)

end BusinessHours
end Gbasic
