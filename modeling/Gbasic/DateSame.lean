import Gbasic.DateKept
import Gbasic.Key
import Gbasic.ValueEqualSame
/-!
# DateSame — datetimes that are written the same

What is shown is written, each field from its own digits (`render_inj`), and a datetime made by operations that keep to
what they are asked is one with every other that is written the same (`shows_all_iff`).
-/
namespace Gbasic
namespace Dates

open Calendar (Date monthStart monthLength)
open List (length_append append_cancel_right)

/-! ## What is written is read back -/

def digitsValue (l : List Byte) : Nat := l.foldl (fun n b => n * 10 + (b.val - 48)) 0

theorem digitsValue_zeros (l : List Byte) : ∀ k : Nat, digitsValue (List.replicate k (byte 48) ++ l) = digitsValue l
  | 0 => rfl
  | k + 1 => by
    rw [List.replicate_succ, List.cons_append]
    exact digitsValue_zeros l k

theorem digitsValue_digits (n : Nat) :
    digitsValue ((Nat.digits 10 n).reverse.map (fun d => byte (48 + d))) = n := by
  have hread : ∀ l : List Nat, (∀ d ∈ l, d < 10) →
      digitsValue (l.reverse.map (fun d => byte (48 + d))) = Nat.ofDigits 10 l := by
    intro l hl
    induction l with
    | nil => rfl
    | cons d l ih =>
      have hd := hl d (List.mem_cons_self ..)
      rw [List.reverse_cons, List.map_append, digitsValue, List.foldl_append]
      show digitsValue (l.reverse.map (fun d => byte (48 + d))) * 10 + ((48 + d) % 256 - 48) = _
      rw [ih (fun e he => hl e (List.mem_cons_of_mem _ he)), Nat.ofDigits_cons]
      omega
  rw [hread _ (fun d hd => Nat.digits_lt_base (by decide) hd), Nat.ofDigits_digits]

def paddedValue (l : List Byte) : Int :=
  match l with
  | [] => 0
  | b :: l => if b = byte '-'.toNat then -(digitsValue l) else digitsValue (b :: l)

theorem digitsValue_decimalPadded (w n : Nat) : digitsValue (decimalPadded w n) = n := by
  rw [decimalPadded, digitsValue_zeros, decimal]
  split_ifs with h
  · rw [h]
    rfl
  · exact digitsValue_digits n

theorem decimalPadded_ne_minus {w n : Nat} : ∀ b ∈ decimalPadded w n, b ≠ byte '-'.toNat := by
  intro b hb
  rcases List.mem_append.1 hb with hb | hb
  · rw [List.eq_of_mem_replicate hb]
    decide
  · rw [decimal] at hb
    split_ifs at hb
    · rw [List.mem_singleton.1 hb]
      decide
    · obtain ⟨d, hd, rfl⟩ := List.mem_map.1 hb
      have hlt : d < 10 := Nat.digits_lt_base (by decide) (List.mem_reverse.1 hd)
      interval_cases d <;> decide

theorem paddedValue_padded (w : Nat) (x : Int) : paddedValue (padded w x) = x := by
  unfold padded
  split_ifs with hx
  · rw [paddedValue, if_pos rfl, digitsValue_decimalPadded]
    omega
  · have hvalue := digitsValue_decimalPadded w x.natAbs
    rcases hl : decimalPadded w x.natAbs with _ | ⟨b, l⟩
    · rw [hl] at hvalue
      show (0 : Int) = x
      have : x.natAbs = 0 := hvalue.symm
      omega
    · have hminus : b ≠ byte '-'.toNat := decimalPadded_ne_minus b (by rw [hl]; exact List.mem_cons_self ..)
      rw [paddedValue, if_neg hminus, ← hl, hvalue]
      omega

theorem padded_inj {w : Nat} {x y : Int} (h : padded w x = padded w y) : x = y := by
  rw [← paddedValue_padded w x, h, paddedValue_padded]

theorem padded_two {x : Int} (h0 : 0 ≤ x) (h : x < 100) : (padded 2 x).length = 2 := by
  interval_cases x <;> decide +kernel

theorem padded_four (x : Int) : 4 ≤ (padded 4 x).length := by
  unfold padded
  split_ifs
  · exact Nat.succ_le_succ (length_decimalPadded 3 x.natAbs)
  · exact length_decimalPadded 4 x.natAbs

theorem append_two {l m : List Byte} {x y : Int} (hx : 0 ≤ x ∧ x < 100) (hy : 0 ≤ y ∧ y < 100)
    (h : l ++ padded 2 x = m ++ padded 2 y) : l = m ∧ x = y := by
  obtain ⟨hl, hp⟩ := List.append_inj' h ((padded_two hx.1 hx.2).trans (padded_two hy.1 hy.2).symm)
  exact ⟨hl, padded_inj hp⟩

section
variable {a b : DateTime}

theorem DateTime.Ranged.two (ha : a.Ranged) : (0 ≤ a.hour ∧ a.hour < 100) ∧ (0 ≤ a.minute ∧ a.minute < 100) ∧
    (0 ≤ a.second ∧ a.second < 100) ∧
    (a.timeOnly = false → (0 ≤ a.month ∧ a.month < 100) ∧ (0 ≤ a.day ∧ a.day < 100)) := by
  have ⟨h1, h2, h3⟩ := ha.timed
  refine ⟨by omega, by omega, by omega, fun ht => ?_⟩
  have hd := ha.dated ht
  have hlen := Calendar.monthLength_bounds a.year a.month.toNat
  have := And.intro hd.month_pos hd.month_le
  have := And.intro hd.day_pos hd.day_le
  exact ⟨by omega, by omega⟩

theorem render_short (ha : a.Ranged) (hrank : 4 ≤ a.precision.rank) : a.timeOnly = true ↔ (render a).length < 9 := by
  obtain ⟨hh, hm, hs, -⟩ := ha.two
  have h1 := padded_two hh.1 hh.2
  have h2 := padded_two hm.1 hm.2
  have h3 := padded_two hs.1 hs.2
  have h4 := padded_four a.year
  rcases ht : a.timeOnly with _ | _
  · obtain ⟨hmo, hda⟩ := ha.two.2.2.2 ht
    have h5 := padded_two hmo.1 hmo.2
    have h6 := padded_two hda.1 hda.2
    refine iff_of_false (by decide) ?_
    rw [render, ht, if_neg (by decide)]
    rcases hp : a.precision <;> rw [hp] at hrank
    · exact absurd hrank (by decide)
    · exact absurd hrank (by decide)
    · exact absurd hrank (by decide)
    all_goals
      simp only [length_append]
      omega
  · refine iff_of_true rfl ?_
    have h7 : (text ":").length = 1 := rfl
    rw [render, ht, if_pos rfl]
    rcases hp : a.precision
    all_goals
      simp only [length_append]
      omega

theorem DateTime.fields_inj (hyear : a.year = b.year) (hmonth : a.month = b.month) (hday : a.day = b.day)
    (hhour : a.hour = b.hour) (hminute : a.minute = b.minute) (hsecond : a.second = b.second)
    (honly : a.timeOnly = b.timeOnly) (hp : a.precision = b.precision) : a = b := by
  cases a
  cases b
  simp_all

/-- **What is written is what is held**, of datetimes that hold what they show. -/
theorem render_inj (ha : a.Ranged) (hb : b.Ranged) (hsa : a.Shown) (hsb : b.Shown) (hp : a.precision = b.precision)
    (h : render a = render b) : a = b := by
  obtain ⟨ah, am, as, adate⟩ := ha.two
  obtain ⟨bh, bm, bs, bdate⟩ := hb.two
  -- the fields that the precision leaves out
  have hsecond : a.precision.rank < 6 → a.second = b.second :=
    fun hr => (hsa.second hr).trans (hsb.second (hp ▸ hr)).symm
  have hminute : a.precision.rank < 5 → a.minute = b.minute :=
    fun hr => (hsa.minute hr).trans (hsb.minute (hp ▸ hr)).symm
  have hhour : a.precision.rank < 4 → a.hour = b.hour := fun hr => (hsa.hour hr).trans (hsb.hour (hp ▸ hr)).symm
  have honly : a.timeOnly = b.timeOnly := by
    rw [Bool.eq_iff_iff]
    by_cases hrank : 4 ≤ a.precision.rank
    · rw [render_short ha hrank, render_short hb (hp ▸ hrank), h]
    · exact iff_of_false (fun ht => hrank (ha.clock ht)) (fun ht => hrank (hp ▸ hb.clock ht))
  rcases ht : a.timeOnly with _ | _
  · obtain ⟨amo, ada⟩ := adate ht
    obtain ⟨bmo, bda⟩ := bdate (honly ▸ ht)
    have hday : a.precision.rank < 3 → a.day = b.day := fun hr =>
      (hsa.day ht hr).trans (hsb.day (honly ▸ ht) (hp ▸ hr)).symm
    have hmonth : a.precision.rank < 2 → a.month = b.month := fun hr =>
      (hsa.month ht hr).trans (hsb.month (honly ▸ ht) (hp ▸ hr)).symm
    rw [render, render, ← honly, ht, if_neg (by decide), if_neg (by decide), ← hp] at h
    rcases hprec : a.precision <;> rw [hprec] at h hsecond hminute hhour hday hmonth <;> dsimp only at h
    · exact DateTime.fields_inj (padded_inj h) (hmonth (by decide)) (hday (by decide)) (hhour (by decide))
        (hminute (by decide))
        (hsecond (by decide)) honly hp
    · obtain ⟨h, emonth⟩ := append_two amo bmo h
      exact DateTime.fields_inj (padded_inj (append_cancel_right h)) emonth (hday (by decide)) (hhour (by decide))
        (hminute (by decide)) (hsecond (by decide)) honly hp
    · obtain ⟨h, eday⟩ := append_two ada bda h
      obtain ⟨h, emonth⟩ := append_two amo bmo (append_cancel_right h)
      exact DateTime.fields_inj (padded_inj (append_cancel_right h)) emonth eday (hhour (by decide))
        (hminute (by decide))
        (hsecond (by decide)) honly hp
    · obtain ⟨h, ehour⟩ := append_two ah bh h
      obtain ⟨h, eday⟩ := append_two ada bda (append_cancel_right h)
      obtain ⟨h, emonth⟩ := append_two amo bmo (append_cancel_right h)
      exact DateTime.fields_inj (padded_inj (append_cancel_right h)) emonth eday ehour (hminute (by decide))
        (hsecond (by decide)) honly hp
    · obtain ⟨h, eminute⟩ := append_two am bm h
      obtain ⟨h, ehour⟩ := append_two ah bh (append_cancel_right h)
      obtain ⟨h, eday⟩ := append_two ada bda (append_cancel_right h)
      obtain ⟨h, emonth⟩ := append_two amo bmo (append_cancel_right h)
      exact DateTime.fields_inj (padded_inj (append_cancel_right h)) emonth eday ehour eminute
        (hsecond (by decide)) honly hp
    · obtain ⟨h, esecond⟩ := append_two as bs h
      obtain ⟨h, eminute⟩ := append_two am bm (append_cancel_right h)
      obtain ⟨h, ehour⟩ := append_two ah bh (append_cancel_right h)
      obtain ⟨h, eday⟩ := append_two ada bda (append_cancel_right h)
      obtain ⟨h, emonth⟩ := append_two amo bmo (append_cancel_right h)
      exact DateTime.fields_inj (padded_inj (append_cancel_right h)) emonth eday ehour eminute esecond honly hp
  · obtain ⟨ay, amo, ada⟩ := hsa.dateless ht
    obtain ⟨by', bmo, bda⟩ := hsb.dateless (honly ▸ ht)
    have hrank := ha.clock ht
    rw [render, render, ← honly, ht, if_pos rfl, if_pos rfl, ← hp] at h
    rcases hprec : a.precision <;> rw [hprec] at h hsecond hminute hrank <;> dsimp only at h
    · exact absurd hrank (by decide)
    · exact absurd hrank (by decide)
    · exact absurd hrank (by decide)
    · exact DateTime.fields_inj (ay.trans by'.symm) (amo.trans bmo.symm) (ada.trans bda.symm) (padded_inj h)
        (hminute (by decide))
        (hsecond (by decide)) honly hp
    · obtain ⟨h, eminute⟩ := append_two am bm h
      exact DateTime.fields_inj (ay.trans by'.symm) (amo.trans bmo.symm) (ada.trans bda.symm)
        (padded_inj (append_cancel_right h)) eminute (hsecond (by decide)) honly hp
    · obtain ⟨h, esecond⟩ := append_two as bs h
      obtain ⟨h, eminute⟩ := append_two am bm (append_cancel_right h)
      exact DateTime.fields_inj (ay.trans by'.symm) (amo.trans bmo.symm) (ada.trans bda.symm)
        (padded_inj (append_cancel_right h)) eminute esecond honly hp

end

/-! ## What each operation asks for -/

section
variable {op : Op} {r dt : DateTime}

theorem not_shown_of_month {x : DateTime} (ht : x.timeOnly = true) (hm : 1 ≤ x.month) : ¬ x.Shown := fun h => by
  have := (h.dateless ht).2.1
  omega

theorem shown_of_dated {x : DateTime} (hc : x.Cut) (ht : x.timeOnly = false) : x.Shown :=
  ⟨hc, fun h => absurd (ht.symm.trans h) (by decide)⟩

/-- **An operation on what shows what it holds** makes another where it is asked to, and only there. -/
theorem shown_step (hop : ∀ o, op.operand = some o → o.Ranged ∧ o.Shown) (hrun : op.run = some r) :
    (r.Shown ↔ op.Keeps) ∧ (op.Keeps → r.Ranged) := by
  cases op with
  | text who s =>
    cases who with
    | date =>
      obtain ⟨buf, offset, hstrip, hr, ht, -, hcut⟩ := parseDateValue_some hrun
      refine ⟨⟨fun h buf' offset' hstrip' => ?_, fun h => shown_of_dated (hcut.2 (h buf offset hstrip)) ht⟩,
        fun _ => hr⟩
      rw [hstrip] at hstrip'
      cases hstrip'
      exact hcut.1 h.toCut
    | time => exact ⟨iff_of_true (parseTimeValue_some hrun).2 trivial, fun _ => (parseTimeValue_some hrun).1⟩
    | datetime =>
      obtain ⟨dt, hdt, rfl⟩ := Option.map_eq_some_iff.1 hrun
      obtain ⟨-, -, -, hr, ht, -⟩ := parseDateValue_some hdt
      exact ⟨iff_of_true (second_shown hr ht).2 trivial, fun _ => (second_shown hr ht).1⟩
  | layouts who ls s =>
    cases who with
    | date =>
      obtain ⟨hcut, hr, hm, honly⟩ := layouts_keep hrun
      refine ⟨⟨fun h => honly.1 ?_, fun h => shown_of_dated hcut (honly.2 h)⟩, fun _ => hr⟩
      by_contra ht
      exact not_shown_of_month (by simpa using ht) hm h
    | time =>
      obtain ⟨dt, hdt, rfl⟩ := Option.map_eq_some_iff.1 hrun
      obtain ⟨-, -, hm, -⟩ := layouts_keep hdt
      exact ⟨iff_of_false (not_shown_of_month rfl hm) (fun h => h), fun h => h.elim⟩
    | datetime =>
      obtain ⟨dt, hdt, rfl⟩ := Option.map_eq_some_iff.1 hrun
      obtain ⟨-, hr, hm, honly⟩ := layouts_keep hdt
      refine ⟨⟨fun h => honly.1 ?_, fun h => (second_shown hr (honly.2 h)).2⟩, fun h => (second_shown hr (honly.2 h)).1⟩
      by_contra ht
      exact @not_shown_of_month { dt with precision := .second } (by simpa using ht) hm h
  | convert who dt =>
    obtain ⟨hr, hs⟩ := hop dt rfl
    obtain ⟨hr', hs'⟩ := datetimeConvertValue_some hr hs hrun
    exact ⟨iff_of_true hs' trivial, fun _ => hr'⟩
  | lens p dt =>
    obtain ⟨hr, hs⟩ := hop dt rfl
    obtain ⟨hr', hs'⟩ := applyLens_some hr hs.dateless hrun
    exact ⟨iff_of_true hs' trivial, fun _ => hr'⟩
  | lensText p s =>
    obtain ⟨dt, hdt, hlens⟩ := Option.bind_eq_some_iff.1 hrun
    have hread : dt.Ranged ∧ (dt.timeOnly = true → dt.year = 0 ∧ dt.month = 0 ∧ dt.day = 0) := by
      rcases Option.or_eq_some_iff.1 hdt with h | ⟨-, h⟩
      · obtain ⟨-, -, -, hr, ht, -⟩ := parseDateValue_some h
        exact ⟨hr, fun h => absurd (ht.symm.trans h) (by decide)⟩
      · exact ⟨(parseTimeValue_some h).1, (parseTimeValue_some h).2.dateless⟩
    obtain ⟨hr', hs'⟩ := applyLens_some hread.1 hread.2 hlens
    exact ⟨iff_of_true hs' trivial, fun _ => hr'⟩
  | plus dt | minus dt =>
    obtain ⟨hr, hs⟩ := hop dt rfl
    obtain ⟨hiff, hranged⟩ := add_shown hr hs hrun
    exact ⟨hiff, fun h => hranged h.1⟩

theorem produced_shown (h : Produced Op.Keeps dt) : dt.Ranged ∧ dt.Shown := by
  induction h with
  | made op _ hkeeps hrun ih =>
    obtain ⟨hiff, hranged⟩ := shown_step ih hrun
    exact ⟨hranged hkeeps, hiff.2 hkeeps⟩

end

/-! ## Wherever datetimes are compared -/

/-- A datetime as it is held: its fields, the flag and the precision in `int`s. -/
def DateTime.held (dt : DateTime) : Eval.DateTime :=
  ⟨.ofInt 32 dt.year, .ofInt 32 dt.month, .ofInt 32 dt.day, .ofInt 32 dt.hour, .ofInt 32 dt.minute, .ofInt 32 dt.second,
    if dt.timeOnly then 1 else 0, .ofNat 32 dt.precision.rank⟩

def DateTime.serialized (dt : DateTime) : List Byte := Eval.serTag Key.SER_DATETIME ++ Eval.serDateTime dt.held

/-- Two datetimes are one under `=`, among the items of arrays, among the fields of records, and in keys. -/
structure Alike (a b : DateTime) : Prop where
  equal : Same.evalEquals (.datetime a.held) (.datetime b.held) = .bool true
  items : ∀ s t l l' m m', List.Forall₂ Same.Deep l l' → List.Forall₂ Same.Deep m m' →
    Same.evalEquals (.array s (l ++ .datetime a.held :: m)) (.array t (l' ++ .datetime b.held :: m')) = .bool true
  fields : ∀ name f g, (∀ p ∈ f, p.1 ≠ name) → Same.Deep (.record f) (.record g) →
    Same.evalEquals (.record ((name, .datetime a.held) :: f)) (.record ((name, .datetime b.held) :: g)) = .bool true
  keys : ∀ key fl, Key.keyAppend key a.serialized fl = Key.keyAppend key b.serialized fl

theorem Alike.refl (a : DateTime) : Alike a a := by
  have hdeep : Same.Deep (.datetime a.held) (.datetime a.held) := (Same.eq_leaf rfl).2 rfl
  refine ⟨?_, fun s t l l' m m' hl hm => ?_, fun name f g hname hfields => ?_, fun key fl => rfl⟩
  · rw [Same.evalEquals, Same.Answer.bool.injEq, decide_eq_true_eq]
    simp [Same.datetimeCompareExact]
  · rw [Same.evalEquals, Same.Answer.bool.injEq]
    exact Same.eq_array.2 ⟨t, _, rfl, .inr (List.rel_append hl (.cons hdeep hm))⟩
  · obtain ⟨r, hr, hlen, hall⟩ := Same.eq_record.1 hfields
    cases hr
    rw [Same.evalEquals, Same.Answer.bool.injEq]
    refine Same.eq_record.2 ⟨_, rfl, by rw [List.length_cons, List.length_cons, hlen], ?_⟩
    intro p hp
    rcases List.mem_cons.1 hp with rfl | hp
    · exact ⟨_, by rw [Same.findField, if_pos rfl], hdeep⟩
    · obtain ⟨w, hw, hd⟩ := hall p hp
      exact ⟨w, by rw [Same.findField, if_neg (hname p hp).symm, hw], hd⟩

/-! ## What datetimes show -/

/-- **A datetime holds nothing it does not show** exactly where its operation keeps to what is asked: of a run whose
operations before have, the fields finer than the precision are the defaults, a time of day has no date, and every
datetime of such a run that is written the same, to the same precision, is the same wherever the two are compared. -/
theorem shows_all_iff (op : Op) (r : DateTime) (hop : ∀ o, op.operand = some o → Produced Op.Keeps o)
    (hrun : op.run = some r) :
    (r.Shown ∧ ∀ e, Produced Op.Keeps e → e.precision = r.precision → render e = render r → Alike e r) ↔ op.Keeps := by
  obtain ⟨hiff, hranged⟩ := shown_step (fun o ho => produced_shown (hop o ho)) hrun
  constructor
  · rintro ⟨hs, -⟩
    exact hiff.1 hs
  · intro hkeeps
    refine ⟨hiff.2 hkeeps, fun e he hp hr => ?_⟩
    obtain ⟨her, hes⟩ := produced_shown he
    rw [render_inj her (hranged hkeeps) hes (hiff.2 hkeeps) hp hr]
    exact Alike.refl r

/-- An hour with an offset of whole hours, and a day added to it. -/
theorem hour_shown :
    (∀ o, (Op.plus ⟨2026, 3, 7, 9, 0, 0, false, .hour⟩ ⟨0, 0, 0, 1, 0, 0, 0⟩).operand = some o → Produced Op.Keeps o) ∧
      (Op.plus ⟨2026, 3, 7, 9, 0, 0, false, .hour⟩ ⟨0, 0, 0, 1, 0, 0, 0⟩).run =
      some ⟨2026, 3, 8, 9, 0, 0, false, .hour⟩ ∧
      ((DateTime.Shown ⟨2026, 3, 8, 9, 0, 0, false, .hour⟩ ∧ ∀ e, Produced Op.Keeps e → e.precision = .hour →
          render e = render ⟨2026, 3, 8, 9, 0, 0, false, .hour⟩ → Alike e ⟨2026, 3, 8, 9, 0, 0, false, .hour⟩) ↔
        (Op.plus ⟨2026, 3, 7, 9, 0, 0, false, .hour⟩ ⟨0, 0, 0, 1, 0, 0, 0⟩).Keeps) := by
  have hread : (Op.text .date (text "2026-03-07 14+05:00")).run = some ⟨2026, 3, 7, 9, 0, 0, false, .hour⟩ := by
    decide +kernel
  have hstrip : datetimeStripZone (text "2026-03-07 14+05:00") = some (text "2026-03-07 14", 18000) := by decide +kernel
  have hmade : ∀ o, (Op.plus ⟨2026, 3, 7, 9, 0, 0, false, .hour⟩ ⟨0, 0, 0, 1, 0, 0, 0⟩).operand = some o →
      Produced Op.Keeps o := by
    rintro o ho
    cases ho
    have hkeeps : (Op.text .date (text "2026-03-07 14+05:00")).Keeps := fun buf offset h _ => by
      rw [hstrip] at h
      cases h
      rfl
    exact .made _ (fun o ho => by cases ho) hkeeps hread
  have hrun : (Op.plus ⟨2026, 3, 7, 9, 0, 0, false, .hour⟩ ⟨0, 0, 0, 1, 0, 0, 0⟩).run =
      some ⟨2026, 3, 8, 9, 0, 0, false, .hour⟩ := by decide +kernel
  exact ⟨hmade, hrun, shows_all_iff _ _ hmade hrun⟩

/-- A time of day read through a layout is written as one read plainly, and is not the same inside an array: it holds
1 January of the year 1. -/
theorem layout_leaves_date : ∃ a b : DateTime, Produced (fun _ => True) a ∧ Produced (fun _ => True) b ∧
    a.precision = b.precision ∧ render a = render b ∧ ¬ a.Shown ∧
      Same.evalEquals (.datetime a.held) (.datetime b.held) = .bool true ∧
      Same.evalEquals (.array 0 [.datetime a.held]) (.array 1 [.datetime b.held]) = .bool false := by
  have hlayout : (Op.layouts .time [text "hh:mm"] (text "14:05")).run = some ⟨1, 1, 1, 14, 5, 0, true, .minute⟩ := by
    decide +kernel
  have hplain : (Op.text .time (text "14:05")).run = some ⟨0, 0, 0, 14, 5, 0, true, .minute⟩ := by decide +kernel
  refine ⟨_, _, .made _ (fun o ho => by cases ho) trivial hlayout, .made _ (fun o ho => by cases ho) trivial hplain,
    rfl, rfl, fun h => ?_, by decide +kernel, by decide +kernel⟩
  have hyear := (h.dateless rfl).1
  cases hyear

end Dates
end Gbasic
