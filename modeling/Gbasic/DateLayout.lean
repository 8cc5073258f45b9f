import Gbasic.DateShown
/-!
# DateLayout — what a layout reads

A layout's runs of letters say whether it names a part of the date or of the time; the loop reads each run
(`layoutToken_reads`) and leaves what is finer than it has read at its default (`layoutLoop_some`).
-/
namespace Gbasic
namespace Dates

/-! ## The runs of a layout -/

def isLetter (b : Byte) (c : Char) : Bool := b = byte c.toNat

def runLength (l : List Byte) : Nat :=
  let c := charAt l 0
  if isLetter c 'Y' ∨ isLetter c 'M' ∨ isLetter c 'D' then dtRun l c 4
  else if isLetter c 'h' ∨ isLetter c 'm' ∨ isLetter c 's' then dtRun l c 2
  else 2

def layoutRuns (l : List Byte) : List (Byte × Nat) :=
  match l with
  | [] => []
  | b :: l => if isAlpha b then (b, runLength (b :: l)) :: layoutRuns (l.drop (runLength (b :: l) - 1))
      else layoutRuns l
termination_by l.length
decreasing_by
  · simp only [List.length_drop, List.length_cons]
    omega
  · simp only [List.length_cons]
    omega

def dateRun (p : Byte × Nat) : Bool := isLetter p.1 'Y' || isLetter p.1 'M' || (isLetter p.1 'D' && decide (p.2 ≤ 2))

def timeRun (p : Byte × Nat) : Bool := isLetter p.1 'h' || isLetter p.1 'm' || isLetter p.1 's'

def namesDate (l : List Byte) : Bool := (layoutRuns l).any dateRun

def namesTime (l : List Byte) : Bool := (layoutRuns l).any timeRun

/-! ## One run -/

theorem atLeast_rank (p q : Precision) : (p.atLeast q).rank = max p.rank q.rank := by
  cases p <;> cases q <;> rfl

inductive Reads (s : LayoutState) : Byte × Nat → LayoutState → Prop
  | year (n : Nat) (v : Int) : 0 ≤ v → v < 10000 → Reads s (byte 'Y'.toNat, n) (s.date { s.dt with year := v } .year)
  | month (n : Nat) (v : Int) : Reads s (byte 'M'.toNat, n) (s.date { s.dt with month := v } .month)
  | day (n : Nat) (v : Int) : n ≤ 2 → Reads s (byte 'D'.toNat, n) (s.date { s.dt with day := v } .day)
  | named (n i : Nat) : ¬ n ≤ 2 → Reads s (byte 'D'.toNat, n) { s with namedDay := some i }
  | hour (n : Nat) (v : Int) : Reads s (byte 'h'.toNat, n) (s.time { s.dt with hour := v } .hour)
  | minute (n : Nat) (v : Int) : Reads s (byte 'm'.toNat, n) (s.time { s.dt with minute := v } .minute)
  | second (n : Nat) (v : Int) : Reads s (byte 's'.toNat, n) (s.time { s.dt with second := v } .second)
  | meridiem (c : Byte) (n : Nat) (pm : Bool) : dateRun (c, n) = false → timeRun (c, n) = false →
    Reads s (c, n) { s with meridiem := some pm }

theorem dtTakeDigits_bounds {t : List Byte} {lo hi n : Nat} {v : Int} (h : dtTakeDigits t lo hi = some (v, n)) :
    0 ≤ v ∧ v < 10 ^ hi := by
  unfold dtTakeDigits at h
  dsimp only at h
  split_ifs at h
  cases h
  have hall : allDigits t 0 ((t.take hi).takeWhile isDigit).length = true := by
    rw [allDigits_iff]
    intro i hi'
    have hget := List.getElem_mem hi'
    have hdigit := List.mem_takeWhile_imp hget
    have hlen : i < (t.take hi).length := lt_of_lt_of_le hi' (List.takeWhile_prefix _).length_le
    have htake : ((t.take hi).takeWhile isDigit)[i] = (t.take hi)[i] := (List.takeWhile_prefix _).getElem _
    rw [htake, List.getElem_take] at hdigit
    rw [zero_add, charAt, List.getD_eq_getElem?_getD, List.getElem?_eq_getElem
      (by rw [List.length_take] at hlen; omega)]
    exact hdigit
  obtain ⟨hlo, hhi⟩ := parseIntSpan_bounds hall
  refine ⟨hlo, hhi.trans_le (pow_le_pow_right₀ (by decide) ?_)⟩
  exact (List.takeWhile_prefix _).length_le.trans (List.length_take_le ..)

theorem pivot_bounds {v : Int} (h0 : 0 ≤ v) (h : v < 100) : 0 ≤ pivot v ∧ pivot v < 10000 := by
  unfold pivot
  split_ifs <;> omega

theorem layoutToken_reads {l t : List Byte} {s s' : LayoutState} {n used : Nat}
    (h : layoutToken l t s = some (n, used, s')) : n = runLength l ∧ Reads s (charAt l 0, n) s' := by
  unfold layoutToken at h
  dsimp only at h
  have hrun : runLength l = if isLetter (charAt l 0) 'Y' ∨ isLetter (charAt l 0) 'M' ∨ isLetter (charAt l 0) 'D' then
      dtRun l (charAt l 0) 4
      else if isLetter (charAt l 0) 'h' ∨ isLetter (charAt l 0) 'm' ∨ isLetter (charAt l 0) 's' then
        dtRun l (charAt l 0) 2
      else 2 := rfl
  generalize hc : charAt l 0 = c at h hrun
  by_cases hY : c = byte 'Y'.toNat
  · rw [if_pos hY] at h
    rw [if_pos (.inl (decide_eq_true hY))] at hrun
    rw [hrun]
    subst hY
    split_ifs at h with h4 h2
    · obtain ⟨⟨v, u⟩, hv, h⟩ := Option.map_eq_some_iff.1 h
      cases h
      obtain ⟨h0, hlt⟩ := dtTakeDigits_bounds hv
      exact ⟨rfl, .year _ v h0 hlt⟩
    · obtain ⟨⟨v, u⟩, hv, h⟩ := Option.map_eq_some_iff.1 h
      cases h
      obtain ⟨h0, hlt⟩ := dtTakeDigits_bounds hv
      obtain ⟨hp0, hplt⟩ := pivot_bounds h0 hlt
      exact ⟨rfl, .year _ _ hp0 hplt⟩
  rw [if_neg hY] at h
  by_cases hM : c = byte 'M'.toNat
  · rw [if_pos hM] at h
    rw [if_pos (.inr (.inl (decide_eq_true hM)))] at hrun
    rw [hrun]
    subst hM
    split_ifs at h with h2 <;>
    · obtain ⟨⟨v, u⟩, -, h⟩ := Option.map_eq_some_iff.1 h
      cases h
      exact ⟨rfl, .month _ _⟩
  rw [if_neg hM] at h
  by_cases hD : c = byte 'D'.toNat
  · rw [if_pos hD] at h
    rw [if_pos (.inr (.inr (decide_eq_true hD)))] at hrun
    rw [hrun]
    subst hD
    by_cases h2 : dtRun l (byte 'D'.toNat) 4 ≤ 2
    · rw [if_pos h2] at h
      obtain ⟨⟨v, u⟩, -, h⟩ := Option.map_eq_some_iff.1 h
      cases h
      exact ⟨rfl, .day _ _ h2⟩
    · rw [if_neg h2] at h
      obtain ⟨⟨v, u⟩, -, h⟩ := Option.map_eq_some_iff.1 h
      cases h
      exact ⟨rfl, .named _ _ h2⟩
  rw [if_neg hD] at h
  have hnotDate : ¬ (isLetter c 'Y' = true ∨ isLetter c 'M' = true ∨ isLetter c 'D' = true) := by
    rintro (h | h | h)
    · exact hY (of_decide_eq_true h)
    · exact hM (of_decide_eq_true h)
    · exact hD (of_decide_eq_true h)
  rw [if_neg hnotDate] at hrun
  by_cases hh : c = byte 'h'.toNat
  · rw [if_pos hh] at h
    rw [if_pos (.inl (decide_eq_true hh))] at hrun
    rw [hrun]
    subst hh
    obtain ⟨⟨v, u⟩, -, h⟩ := Option.map_eq_some_iff.1 h
    cases h
    exact ⟨rfl, .hour _ _⟩
  rw [if_neg hh] at h
  by_cases hm : c = byte 'm'.toNat
  · rw [if_pos hm] at h
    rw [if_pos (.inr (.inl (decide_eq_true hm)))] at hrun
    rw [hrun]
    subst hm
    obtain ⟨⟨v, u⟩, -, h⟩ := Option.map_eq_some_iff.1 h
    cases h
    exact ⟨rfl, .minute _ _⟩
  rw [if_neg hm] at h
  by_cases hs : c = byte 's'.toNat
  · rw [if_pos hs] at h
    rw [if_pos (.inr (.inr (decide_eq_true hs)))] at hrun
    rw [hrun]
    subst hs
    obtain ⟨⟨v, u⟩, -, h⟩ := Option.map_eq_some_iff.1 h
    cases h
    exact ⟨rfl, .second _ _⟩
  rw [if_neg hs] at h
  have hnotTime : ¬ (isLetter c 'h' = true ∨ isLetter c 'm' = true ∨ isLetter c 's' = true) := by
    rintro (h | h | h)
    · exact hh (of_decide_eq_true h)
    · exact hm (of_decide_eq_true h)
    · exact hs (of_decide_eq_true h)
  rw [if_neg hnotTime] at hrun
  split_ifs at h
  cases h
  refine ⟨hrun.symm, .meridiem c 2 _ ?_ ?_⟩
  · simp only [not_or, Bool.not_eq_true] at hnotDate
    simp [dateRun, hnotDate]
  · simp only [not_or, Bool.not_eq_true] at hnotTime
    simp [timeRun, hnotTime]

/-! ## The loop -/

/-- What the loop keeps: what is finer than it has read is at its default, and so is the month before a date is read. -/
structure LayoutState.Held (s : LayoutState) : Prop where
  cut : s.dt.Cut
  dated : s.dt.timeOnly = false
  year : 0 ≤ s.dt.year ∧ s.dt.year < 10000
  month : s.sawDate = false → s.dt.month = 1
  clock : s.sawTime = true → 4 ≤ s.dt.precision.rank

section
variable {s s' : LayoutState} {p : Byte × Nat}

theorem Reads.saw (h : Reads s p s') :
    s'.sawDate = (s.sawDate || dateRun p) ∧ s'.sawTime = (s.sawTime || timeRun p) := by
  cases h with
  | year | month => exact ⟨(Bool.or_true _).symm, (Bool.or_false _).symm⟩
  | day n v hn =>
    have hdate : dateRun (byte 'D'.toNat, n) = true := by
      simp [dateRun, isLetter, hn]
    rw [hdate]
    exact ⟨(Bool.or_true _).symm, (Bool.or_false _).symm⟩
  | named n i hn =>
    have hdate : dateRun (byte 'D'.toNat, n) = false := by
      simp only [dateRun, hn, decide_false, Bool.and_false, Bool.or_false]
      rfl
    rw [hdate]
    exact ⟨(Bool.or_false _).symm, (Bool.or_false _).symm⟩
  | hour | minute | second => exact ⟨(Bool.or_false _).symm, (Bool.or_true _).symm⟩
  | meridiem c n pm hdate htime =>
    rw [hdate, htime]
    exact ⟨(Bool.or_false _).symm, (Bool.or_false _).symm⟩

theorem cut_read {dt dt' : DateTime} {q : Precision} (h : dt.Cut) (ht : dt'.timeOnly = dt.timeOnly)
    (hp : dt'.precision = dt.precision.atLeast q) (hsec : q.rank < 6 → dt'.second = dt.second)
    (hmin : q.rank < 5 → dt'.minute = dt.minute) (hhour : q.rank < 4 → dt'.hour = dt.hour)
    (hday : q.rank < 3 → dt'.day = dt.day) (hmonth : q.rank < 2 → dt'.month = dt.month) : dt'.Cut := by
  have hrank : dt'.precision.rank = max dt.precision.rank q.rank := by rw [hp, atLeast_rank]
  refine ⟨fun hlt => ?_, fun hlt => ?_, fun hlt => ?_, fun hd hlt => ?_, fun hd hlt => ?_⟩ <;> rw [hrank] at hlt
  · rw [hsec (by omega), h.second (by omega)]
  · rw [hmin (by omega), h.minute (by omega)]
  · rw [hhour (by omega), h.hour (by omega)]
  · rw [hday (by omega), h.day (ht ▸ hd) (by omega)]
  · rw [hmonth (by omega), h.month (ht ▸ hd) (by omega)]

theorem Reads.held (h : Reads s p s') (hs : s.Held) : s'.Held := by
  have hclock : ∀ q, s.sawTime = true → 4 ≤ (s.dt.precision.atLeast q).rank := by
    intro q hsaw
    rw [atLeast_rank]
    exact (hs.clock hsaw).trans (le_max_left _ _)
  have hfine : ∀ q : Precision, 4 ≤ q.rank → 4 ≤ (s.dt.precision.atLeast q).rank := by
    intro q hq
    rw [atLeast_rank]
    exact hq.trans (le_max_right _ _)
  cases h with
  | year n v h0 hlt =>
    exact ⟨cut_read (q := .year) hs.cut rfl rfl (fun _ => rfl) (fun _ => rfl) (fun _ => rfl) (fun _ => rfl)
      (fun _ => rfl), hs.dated, ⟨h0, hlt⟩, (fun h => by cases h), hclock _⟩
  | month n v =>
    exact ⟨cut_read (q := .month) hs.cut rfl rfl (fun _ => rfl) (fun _ => rfl) (fun _ => rfl) (fun _ => rfl)
      (fun h => absurd h (by decide)), hs.dated, hs.year, (fun h => by cases h), hclock _⟩
  | day n v hn =>
    exact ⟨cut_read (q := .day) hs.cut rfl rfl (fun _ => rfl) (fun _ => rfl) (fun _ => rfl)
      (fun h => absurd h (by decide)) (fun _ => rfl), hs.dated, hs.year, (fun h => by cases h), hclock _⟩
  | named n i hn => exact ⟨hs.cut, hs.dated, hs.year, hs.month, hs.clock⟩
  | hour n v =>
    exact ⟨cut_read (q := .hour) hs.cut rfl rfl (fun _ => rfl) (fun _ => rfl) (fun h => absurd h (by decide))
      (fun _ => rfl) (fun _ => rfl), hs.dated, hs.year, hs.month, fun _ => hfine _ (by decide)⟩
  | minute n v =>
    exact ⟨cut_read (q := .minute) hs.cut rfl rfl (fun _ => rfl) (fun h => absurd h (by decide)) (fun _ => rfl)
      (fun _ => rfl) (fun _ => rfl), hs.dated, hs.year, hs.month, fun _ => hfine _ (by decide)⟩
  | second n v =>
    exact ⟨cut_read (q := .second) hs.cut rfl rfl (fun h => absurd h (by decide)) (fun _ => rfl) (fun _ => rfl)
      (fun _ => rfl) (fun _ => rfl), hs.dated, hs.year, hs.month, fun _ => hfine _ (by decide)⟩
  | meridiem c n pm => exact ⟨hs.cut, hs.dated, hs.year, hs.month, hs.clock⟩

/-- **What the loop leaves**: what it keeps, and whether the layout names a part of the date or of the time. -/
theorem layoutLoop_some {l t : List Byte} (h : layoutLoop l t s = some s') (hs : s.Held) :
    s'.Held ∧ s'.sawDate = (s.sawDate || namesDate l) ∧ s'.sawTime = (s.sawTime || namesTime l) := by
  fun_induction layoutLoop l t s with
  | case1 s =>
    cases h
    simp [namesDate, namesTime, layoutRuns, hs]
  | case2 => cases h
  | case3 => cases h
  | case4 t s b l halpha n used s₁ htoken ih =>
    obtain ⟨hn, hreads⟩ := layoutToken_reads htoken
    obtain ⟨hheld, hdate, htime⟩ := ih h (hreads.held hs)
    obtain ⟨hd, ht⟩ := hreads.saw
    have hruns : layoutRuns (b :: l) = (b, n) :: layoutRuns (l.drop (n - 1)) := by
      rw [layoutRuns, if_pos halpha, ← hn]
    refine ⟨hheld, ?_, ?_⟩
    · rw [hdate, hd, Bool.or_assoc, namesDate, namesDate, hruns, List.any_cons]
      rfl
    · rw [htime, ht, Bool.or_assoc, namesTime, namesTime, hruns, List.any_cons]
      rfl
  | case5 t s l halpha ih =>
    obtain ⟨hheld, hdate, htime⟩ := ih h hs
    have hruns : layoutRuns (charAt t 0 :: l) = layoutRuns l := by rw [layoutRuns, if_neg halpha]
    exact ⟨hheld, by rw [hdate, namesDate, namesDate, hruns], by rw [htime, namesTime, namesTime, hruns]⟩
  | case6 => cases h

end

end Dates
end Gbasic
