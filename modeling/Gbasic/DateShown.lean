import Gbasic.DateText
/-!
# DateShown — what a datetime holds and what it shows

A datetime is `Shown` where the fields finer than its precision hold their defaults and a time of day has no date.  Each
operation is followed by what it asks for that (`Op.Keeps`).
-/
namespace Gbasic
namespace Dates

open Calendar (Date monthStart monthLength)

structure DateTime.Cut (dt : DateTime) : Prop where
  second : dt.precision.rank < 6 → dt.second = 0
  minute : dt.precision.rank < 5 → dt.minute = 0
  hour : dt.precision.rank < 4 → dt.hour = 0
  day : dt.timeOnly = false → dt.precision.rank < 3 → dt.day = 1
  month : dt.timeOnly = false → dt.precision.rank < 2 → dt.month = 1

/-- Nothing is held that is not shown. -/
structure DateTime.Shown (dt : DateTime) : Prop extends dt.Cut where
  dateless : dt.timeOnly = true → dt.year = 0 ∧ dt.month = 0 ∧ dt.day = 0

structure DateTime.Ranged (dt : DateTime) : Prop where
  timed : dt.Timed
  dated : dt.timeOnly = false → dt.Dated
  clock : dt.timeOnly = true → 4 ≤ dt.precision.rank

/-! ## Digits -/

theorem isDigit_iff {b : Byte} : isDigit b = true ↔ 48 ≤ b.val ∧ b.val ≤ 57 := by
  unfold isDigit
  rw [decide_eq_true_eq]

theorem allDigits_iff {s : List Byte} {start count : Nat} :
    allDigits s start count = true ↔ ∀ i < count, isDigit (charAt s (start + i)) = true := by
  unfold allDigits
  rw [List.all_eq_true]
  simp only [List.mem_range]

theorem parseIntSpan_bounds {s : List Byte} {start : Nat} : ∀ {count : Nat}, allDigits s start count = true →
    0 ≤ parseIntSpan s start count ∧ parseIntSpan s start count < 10 ^ count
  | 0, _ => by
    show (0 : Int) ≤ 0 ∧ (0 : Int) < 10 ^ 0
    decide
  | count + 1, h => by
    rw [allDigits_iff] at h
    have hlast := isDigit_iff.1 (h count (Nat.lt_succ_self count))
    obtain ⟨hlo, hhi⟩ := @parseIntSpan_bounds s start count
      (allDigits_iff.2 (fun i hi => h i (Nat.lt_succ_of_lt hi)))
    have hstep : parseIntSpan s start (count + 1) =
        parseIntSpan s start count * 10 + ((charAt s (start + count)).val - 48 : Int) := by
      unfold parseIntSpan
      rw [List.range_succ, List.foldl_append]
      rfl
    rw [hstep, pow_succ]
    omega

/-! ## Text -/

section
variable {dt r : DateTime} {s : List Byte}

theorem sound_some (h : sound dt = some r) : r = dt ∧ datePartsFault dt = false := by
  unfold sound at h
  split_ifs at h with hf
  cases h
  exact ⟨rfl, by simpa using hf⟩

theorem ranged_of_sound (hf : datePartsFault dt = false) (hc : dt.Cut) (hy : IsInt dt.year)
    (hclock : dt.timeOnly = true → 4 ≤ dt.precision.rank) : dt.Ranged := by
  have h6 := hc.second
  have h5 := hc.minute
  have h4 := hc.hour
  unfold datePartsFault at hf
  rcases ht : dt.timeOnly with _ | _
  · rw [ht, if_neg (by decide), decide_eq_false_iff_not] at hf
    have h3 := hc.day ht
    have hdim := daysInMonth_bounds dt.year dt.month
    refine ⟨⟨by omega, by omega, by omega⟩, fun _ => ⟨hy, by omega, by omega, by omega, ?_⟩, fun h => by simp [ht] at h⟩
    rw [← daysInMonth_eq]
    omega
  · rw [ht, if_pos rfl, decide_eq_false_iff_not] at hf
    have hrank := hclock ht
    exact ⟨⟨by omega, by omega, by omega⟩, fun h => by simp [ht] at h, fun _ => hrank⟩

theorem strictField_some {i : Nat} {sep : Char} {read : Int → DateTime} {more : DateTime → Option DateTime}
    (h : strictField s i sep read more = some r) : ∃ v, (0 ≤ v ∧ v < 100) ∧
      (s.length = i + 3 ∧ sound (read v) = some r ∨ i + 3 < s.length ∧ more (read v) = some r) := by
  unfold strictField at h
  split_ifs at h with hbad hend
  all_goals
    obtain ⟨hlen, hrest⟩ := not_or.1 hbad
    refine ⟨_, @parseIntSpan_bounds _ _ 2 (by simpa using (not_or.1 hrest).2), ?_⟩
  · exact .inl ⟨hend, h⟩
  · exact .inr ⟨by omega, h⟩

structure StrictRead (s : List Byte) (dt : DateTime) : Prop where
  ranged : dt.Ranged
  cut : dt.Cut
  dated : dt.timeOnly = false
  isYear : 0 ≤ dt.year ∧ dt.year < 10000
  timed : 11 ≤ s.length → 4 ≤ dt.precision.rank
  hour : dt.precision.rank = 4 ↔ s.length = 13

theorem StrictRead.of_sound (hs : sound dt = some r) (hc : dt.Cut) (hdated : dt.timeOnly = false)
    (hy : 0 ≤ dt.year ∧ dt.year < 10000) (htimed : 11 ≤ s.length → 4 ≤ dt.precision.rank)
    (hhour : dt.precision.rank = 4 ↔ s.length = 13) : StrictRead s r := by
  obtain ⟨rfl, hf⟩ := sound_some hs
  exact ⟨ranged_of_sound hf hc (by unfold IsInt; omega) (fun h => by simp [hdated] at h), hc, hdated, hy, htimed, hhour⟩

theorem cut_of {y m d h mi sec : Int} {t : Bool} (p : Precision) (hsec : p.rank < 6 → sec = 0)
    (hmin : p.rank < 5 → mi = 0)
    (hhour : p.rank < 4 → h = 0) (hday : t = false → p.rank < 3 → d = 1) (hmonth : t = false → p.rank < 2 → m = 1) :
    (DateTime.mk y m d h mi sec t p).Cut := ⟨hsec, hmin, hhour, hday, hmonth⟩

theorem newYearOf_ranged {y : Int} (hy : IsInt y) : (newYearOf y).Ranged ∧ (newYearOf y).Cut := by
  have hcut : (newYearOf y).Cut := ⟨fun _ => rfl, fun _ => rfl, fun _ => rfl, fun _ _ => rfl, fun _ _ => rfl⟩
  exact ⟨ranged_of_sound (by simp [datePartsFault, newYearOf, Precision.rank]) hcut hy (fun h => by cases h), hcut⟩

theorem parseDateValueStrict_some (h : parseDateValueStrict s = some r) : StrictRead s r := by
  unfold parseDateValueStrict at h
  split_ifs at h with h4 hl4
  all_goals
    have hyear := @parseIntSpan_bounds s 0 4 (by simpa using (not_or.1 h4).2)
    have hy : 0 ≤ parseIntSpan s 0 4 ∧ parseIntSpan s 0 4 < 10000 := by simpa using hyear
  · cases h
    obtain ⟨hranged, hcut⟩ := newYearOf_ranged (y := parseIntSpan s 0 4) (by unfold IsInt; omega)
    exact ⟨hranged, hcut, rfl, hy, by omega, iff_of_false (fun h => by cases h) (by omega)⟩
  obtain ⟨month, -, ⟨hlen, hs⟩ | ⟨hlen, h⟩⟩ := strictField_some h
  · exact .of_sound hs (cut_of .month (fun _ => rfl) (fun _ => rfl) (fun _ => rfl) (fun _ _ => rfl)
      (fun _ h => absurd h (by decide))) rfl hy (by omega) (iff_of_false (fun h => by cases h) (by omega))
  obtain ⟨day, -, ⟨hlen, hs⟩ | ⟨hlen, h⟩⟩ := strictField_some h
  · exact .of_sound hs (cut_of .day (fun _ => rfl) (fun _ => rfl) (fun _ => rfl) (fun _ h => absurd h (by decide))
      (fun _ h => absurd h (by decide))) rfl hy (by omega) (iff_of_false (fun h => by cases h) (by omega))
  obtain ⟨hour, -, ⟨hlen, hs⟩ | ⟨hlen, h⟩⟩ := strictField_some h
  · exact .of_sound hs (cut_of .hour (fun _ => rfl) (fun _ => rfl) (fun h => absurd h (by decide))
      (fun _ h => absurd h (by decide)) (fun _ h => absurd h (by decide))) rfl hy
      (fun _ => le_rfl) (iff_of_true rfl hlen)
  obtain ⟨minute, -, ⟨hlen, hs⟩ | ⟨hlen, h⟩⟩ := strictField_some h
  · exact .of_sound hs (cut_of .minute (fun _ => rfl) (fun h => absurd h (by decide)) (fun h => absurd h (by decide))
      (fun _ h => absurd h (by decide)) (fun _ h => absurd h (by decide))) rfl hy (fun _ => Nat.le_succ 4)
      (iff_of_false (fun h => by cases h) (by omega))
  obtain ⟨second, -, ⟨hlen, hs⟩ | ⟨-, h⟩⟩ := strictField_some h
  · exact .of_sound hs (cut_of .second (fun h => absurd h (by decide)) (fun h => absurd h (by decide))
      (fun h => absurd h (by decide)) (fun _ h => absurd h (by decide)) (fun _ h => absurd h (by decide))) rfl hy
      (fun _ => (show 4 ≤ 6 by decide)) (iff_of_false (fun h => by cases h) (by omega))
  · cases h

theorem parseTimeValue_some (h : parseTimeValue s = some r) : r.Ranged ∧ r.Shown := by
  have hmade : ∀ {dt : DateTime}, sound dt = some r → dt.Cut → dt.timeOnly = true → 4 ≤ dt.precision.rank →
      dt.year = 0 ∧ dt.month = 0 ∧ dt.day = 0 → r.Ranged ∧ r.Shown := by
    intro dt hs hc ht hrank hnone
    obtain ⟨rfl, hf⟩ := sound_some hs
    exact ⟨ranged_of_sound hf hc (by rw [hnone.1]; decide) (fun _ => hrank), hc, fun _ => hnone⟩
  unfold parseTimeValue at h
  dsimp only at h
  split_ifs at h with h2 hl2
  · exact hmade h (cut_of .hour (fun _ => rfl) (fun _ => rfl) (fun h => absurd h (by decide)) (fun h => by cases h)
      (fun h => by cases h)) rfl le_rfl ⟨rfl, rfl, rfl⟩
  obtain ⟨minute, -, ⟨-, hs⟩ | ⟨-, h⟩⟩ := strictField_some h
  · exact hmade hs (cut_of .minute (fun _ => rfl) (fun h => absurd h (by decide)) (fun h => absurd h (by decide))
      (fun h => by cases h) (fun h => by cases h)) rfl (Nat.le_succ 4) ⟨rfl, rfl, rfl⟩
  obtain ⟨second, -, ⟨-, hs⟩ | ⟨-, h⟩⟩ := strictField_some h
  · exact hmade hs (cut_of .second (fun h => absurd h (by decide)) (fun h => absurd h (by decide))
      (fun h => absurd h (by decide)) (fun h => by cases h) (fun h => by cases h)) rfl (show 4 ≤ 6 by decide)
      ⟨rfl, rfl, rfl⟩
  · cases h

/-! ## Zones -/

theorem stripSign_some {buf b : List Byte} {offset : Int} : ∀ {n : Nat}, stripSign buf n = some (b, offset) →
    offset % 60 = 0 ∧ (n + 11 ≤ buf.length → offset ≠ 0 → 11 ≤ b.length)
  | 0, h => by
    cases h
    exact ⟨rfl, fun _ h => absurd rfl h⟩
  | n + 1, h => by
    rw [stripSign] at h
    by_cases hsign : isAt buf (n + 11) '+' = true ∨ isAt buf (n + 11) '-' = true
    · rw [if_pos hsign] at h
      split at h
      · cases h
      rename_i hh mm hz
      by_cases hbad : 23 < hh ∨ 59 < mm
      · rw [if_pos hbad] at h
        cases h
      · rw [if_neg hbad] at h
        cases h
        refine ⟨by split_ifs <;> omega, fun hn _ => ?_⟩
        rw [List.length_take]
        omega
    · rw [if_neg hsign] at h
      obtain ⟨h60, hlen⟩ := stripSign_some h
      exact ⟨h60, fun hn => hlen (by omega)⟩

theorem datetimeStripZone_some {b : List Byte} {offset : Int} (h : datetimeStripZone s = some (b, offset)) :
    offset % 60 = 0 ∧ (offset ≠ 0 → 11 ≤ b.length) := by
  unfold datetimeStripZone at h
  dsimp only at h
  split_ifs at h with h0 h1 h2
  · cases h
    exact ⟨rfl, fun h => absurd rfl h⟩
  · cases h
    exact ⟨rfl, fun h => absurd rfl h⟩
  · obtain ⟨h60, hlen⟩ := stripSign_some h
    refine ⟨h60, hlen ?_⟩
    rw [List.length_set]
    have := not_or.1 h1
    omega

/-- **What text reads is in range**, and shows what it holds but where an offset moves the minutes of an hour. -/
theorem parseDateValue_some (h : parseDateValue s = some r) : ∃ buf offset, datetimeStripZone s = some (buf, offset) ∧
    r.Ranged ∧ r.timeOnly = false ∧ 0 < r.month ∧ (r.Cut ↔ (buf.length = 13 → offset % 3600 = 0)) := by
  unfold parseDateValue at h
  split at h
  · cases h
  rename_i buf offset hstrip
  split at h
  · cases h
  rename_i dt hread
  have hdt := parseDateValueStrict_some hread
  refine ⟨buf, offset, hstrip, ?_⟩
  split_ifs at h with hoff
  · split at h
    · cases h
    rename_i t ht
    obtain ⟨h60, hlen⟩ := datetimeStripZone_some hstrip
    have hrank := hdt.timed (hlen hoff)
    have hdated := hdt.ranged.dated hdt.dated
    obtain ⟨-, rfl⟩ := (zoneTimegm_iff hdated).1 ht
    obtain ⟨hd, htimed, honly, hprec, hcount⟩ := zoneCivil_some h
    rw [if_neg (by omega)] at hprec
    refine ⟨⟨htimed, fun _ => hd, fun h => by simp [honly] at h⟩, honly, hd.month_pos, ?_⟩
    have hseconds : r.count = dt.count - offset := by
      rw [hcount]
      ring
    have hsec := hdt.cut.second
    have hmin := hdt.cut.minute
    obtain ⟨h1, h2, h3⟩ := id htimed
    unfold DateTime.count at hseconds
    rw [← hdt.hour]
    constructor
    · intro hcut h4
      have hrmin := hcut.minute (by rw [hprec]; omega)
      have hrsec := hcut.second (by rw [hprec]; omega)
      have hmin0 := hmin (by omega)
      have hsec0 := hsec (by omega)
      omega
    · intro h3600
      refine ⟨fun h6 => ?_, fun h5 => ?_, fun h4 => ?_, fun _ h3 => ?_, fun _ h2 => ?_⟩ <;> rw [hprec] at *
      · have hsec0 := hsec h6
        omega
      · have hsec0 := hsec (by omega)
        have hmin0 := hmin h5
        have h36 := h3600 (by omega)
        omega
      · omega
      · omega
      · omega
  · cases h
    have hzero : offset = 0 := by simpa using hoff
    subst hzero
    exact ⟨hdt.ranged, hdt.dated, (hdt.ranged.dated hdt.dated).month_pos, iff_of_true hdt.cut (fun _ => rfl)⟩

end

end Dates
end Gbasic
