import Gbasic.MoneyScan
/-!
# MoneyRead — money is read exactly, where it is

Text that is a number is read as its digits come to (`parse_spelled`), and no other text is (`parse_unspelled`).  The
number it is read as is the text's, less a power of ten for what was not counted (`Numeral.lost`).
-/
namespace Gbasic
namespace Money

open Dates (cint cint_eq_some IsInt)
open Eval (CString)

variable {e : Int} {r : List Byte}

/-! ## Exponents -/

def clampInt (e : Int) : Int := if e < 0 then -clamp e.natAbs else clamp e.natAbs

theorem clampInt_signed (minus : Bool) (n : Nat) :
    clampInt (if minus = true then -(n : Int) else n) = if minus = true then -(clamp n : Int) else clamp n := by
  cases minus
  · rw [if_neg Bool.false_ne_true, if_neg Bool.false_ne_true, clampInt, if_neg (by omega), Int.natAbs_natCast]
  · rw [if_pos rfl, if_pos rfl, clampInt, Int.natAbs_neg, Int.natAbs_natCast]
    by_cases hn : n = 0
    · rw [hn, clamp_small (by decide)]
      rfl
    · rw [if_pos (by omega)]

theorem clampInt_zero : clampInt 0 = 0 := by
  rw [clampInt, if_neg (by decide), Int.natAbs_zero, clamp_small (by decide)]
  rfl

theorem blank_ne {b : Byte} (hb : isBlank b = true) : isDigit b = false ∧ b ≠ byte 'e'.toNat ∧ b ≠ byte 'E'.toNat ∧
    b ≠ byte '.'.toNat ∧ b ≠ byte '+'.toNat ∧ b ≠ byte '-'.toNat := by
  unfold isBlank at hb
  rw [decide_eq_true_eq] at hb
  rcases hb with rfl | rfl <;> decide

theorem blanks_stop {l : List Byte} (hl : ∀ b ∈ l, isBlank b = true) : Stops l := by
  rintro b m rfl
  exact (blank_ne (hl b (List.mem_cons_self ..))).1

theorem digit_sign {d : Nat} (hd : d < 10) : byte (48 + d) ≠ byte '+'.toNat ∧ byte (48 + d) ≠ byte '-'.toNat ∧
    isBlank (byte (48 + d)) = false := by
  interval_cases d <;> decide

theorem readExponent_spelled {ex after : List Byte} (hex : SpellsExponent e ex)
    (hafter : ∀ b ∈ after, isBlank b = true) : readExponent (ex ++ after) = .ok (clampInt e, after) := by
  cases hex with
  | none =>
    rw [clampInt_zero, List.nil_append]
    cases after with
    | nil => rfl
    | cons b m =>
      obtain ⟨-, he, hE, -⟩ := blank_ne (hafter b (List.mem_cons_self ..))
      rw [readExponent, if_neg (not_or.2 ⟨he, hE⟩)]
  | @some b minus sg l hb hsg hne hl =>
    obtain ⟨d, l', rfl⟩ := List.exists_cons_of_ne_nil hne
    have hd := hl d (List.mem_cons_self ..)
    have hsign : readSign (sg ++ (digitBytes (d :: l') ++ after)) = (minus, digitBytes (d :: l') ++ after) := by
      refine readSign_spelled hsg (fun b m hbm => ?_)
      obtain ⟨rfl, -⟩ := List.cons.inj hbm
      exact ⟨(digit_sign hd).1, (digit_sign hd).2.1⟩
    have hclamp := clampedDigits_eq (blanks_stop hafter) 0 0 hl (clamp_small (by decide)).symm
    have hhead : isDigit ((digitBytes (d :: l') ++ after).headD 0) = true := (digitByte hd).1
    rw [zero_mul, zero_add] at hclamp
    rw [List.cons_append, List.append_assoc, readExponent, if_pos hb, hsign]
    dsimp only
    rw [if_pos hhead, hclamp, clampInt_signed]

theorem readExponent_some {l : List Byte} (h : readExponent l = .ok (e, r)) :
    ∃ E ex, SpellsExponent E ex ∧ l = ex ++ r := by
  cases l with
  | nil =>
    cases h
    exact ⟨0, [], .none, rfl⟩
  | cons b l =>
    rw [readExponent] at h
    by_cases hb : b = byte 'e'.toNat ∨ b = byte 'E'.toNat
    swap
    · rw [if_neg hb] at h
      cases h
      exact ⟨0, [], .none, rfl⟩
    rw [if_pos hb] at h
    rcases hsign : readSign l with ⟨minus, m⟩
    rw [hsign] at h
    dsimp only at h
    obtain ⟨sg, hsg, rfl⟩ := readSign_some hsign
    by_cases hdigit : isDigit (m.headD 0) = true
    swap
    · rw [if_neg hdigit] at h
      cases h
    rw [if_pos hdigit] at h
    have hclamp := clampedDigits_eq (dropWhile_stops m) 0 0 (run_lt m) (clamp_small (by decide)).symm
    rw [run_append] at hclamp
    rw [hclamp] at h
    cases h
    have hne : run m ≠ [] := by
      cases m with
      | nil => exact absurd hdigit (by decide)
      | cons c m =>
        unfold run
        rw [List.takeWhile_cons_of_pos (show isDigit c = true from hdigit), List.map_cons]
        exact List.cons_ne_nil _ _
    refine ⟨_, _, .some hb hsg hne (run_lt m), ?_⟩
    rw [List.cons_append, List.append_assoc, run_append]

/-! ## Text that is a number -/

namespace Numeral

variable (n : Numeral)

def places : Int := n.frac.length - unkept n.whole

/-- How many digits are kept above a scale. -/
def kept (scale : Int) : Int := ((significant n.digits).take 40).length + (scale - n.places + clampInt n.exponent)

/-- The counts are `int`s. -/
structure Fits (scale : Int) : Prop where
  whole : IsInt (-(unkept n.whole : Int))
  places : IsInt n.places
  scaled : IsInt (scale - n.places)
  shift : IsInt (scale - n.places + clampInt n.exponent)
  kept : IsInt (n.kept scale)

end Numeral

def body (s : List Byte) : List Byte := (readSign (skipBlanks s)).2

def fracOf (l : List Byte) : List Nat :=
  match l.dropWhile isDigit with
  | [] => []
  | b :: m => if b = byte '.'.toNat then run m else []

/-- The counts of the digits of a text are `int`s. -/
structure Counted (s : List Byte) : Prop where
  whole : IsInt (-(unkept (run (body s)) : Int))
  frac : IsInt ((fracOf (body s)).length - unkept (run (body s)) : Int)

section
variable {s : List Byte} {n : Numeral} {scale : Int} {excess : Excess}

theorem keptDigits_iff {st : Scan} {k : Int} (hdigits : st.digits = (significant n.digits).take 40)
    (hexp : st.pointExp = n.places) : keptDigits st scale (clampInt n.exponent) = some k ↔
      IsInt (scale - n.places) ∧ IsInt (scale - n.places + clampInt n.exponent) ∧ IsInt (n.kept scale) ∧
        k = n.kept scale := by
  unfold keptDigits
  rw [hdigits, hexp]
  simp only [Option.bind_eq_bind, Option.bind_eq_some_iff, cint_eq_some]
  constructor
  · rintro ⟨_, ⟨h1, rfl⟩, _, ⟨h2, rfl⟩, h3, rfl⟩
    exact ⟨h1, h2, h3, rfl⟩
  · rintro ⟨h1, h2, h3, rfl⟩
    exact ⟨_, ⟨h1, rfl⟩, _, ⟨h2, rfl⟩, h3, rfl⟩

theorem spelled_body (h : Spells n s) : ∃ point ex after, SpellsPoint n.frac point ∧ SpellsExponent n.exponent ex ∧
    (∀ b ∈ after, isBlank b = true) ∧
      readSign (skipBlanks s) = (n.negative, digitBytes n.whole ++ (point ++ (ex ++ after))) := by
  obtain ⟨hdigits, hsome, before, sg, point, ex, after, hbefore, hsg, hpoint, hex, hafter, rfl⟩ := h
  rcases n with ⟨negative, w, f, e⟩
  dsimp only [Numeral.digits] at *
  refine ⟨point, ex, after, hpoint, hex, hafter, ?_⟩
  have hbody : ∀ b m, digitBytes w ++ (point ++ (ex ++ after)) = b :: m →
      b ≠ byte '+'.toNat ∧ b ≠ byte '-'.toNat ∧ isBlank b = false := by
    intro b m hbm
    cases w with
    | nil =>
      cases hpoint with
      | none => exact absurd rfl hsome
      | point l =>
        obtain ⟨rfl, -⟩ := List.cons.inj hbm
        decide
    | cons d w =>
      obtain ⟨rfl, -⟩ := List.cons.inj hbm
      exact digit_sign (hdigits d (List.mem_cons_self ..))
  have hskip : skipBlanks (before ++ (sg ++ (digitBytes w ++ (point ++ (ex ++ after))))) =
      sg ++ (digitBytes w ++ (point ++ (ex ++ after))) := by
    refine skipBlanks_append hbefore (fun b m hbm => ?_)
    cases hsg with
    | none => exact (hbody b m hbm).2.2
    | plus | minus =>
      obtain ⟨rfl, -⟩ := List.cons.inj hbm
      decide
  rw [hskip]
  exact readSign_spelled hsg (fun b m hbm => ⟨(hbody b m hbm).1, (hbody b m hbm).2.1⟩)

theorem exponent_stops {ex after : List Byte} (hex : SpellsExponent e ex) (hafter : ∀ b ∈ after, isBlank b = true) :
    Stops (ex ++ after) ∧ (ex ++ after).head? ≠ some (byte '.'.toNat) := by
  cases hex with
  | none =>
    rw [List.nil_append]
    refine ⟨blanks_stop hafter, fun h => ?_⟩
    cases after with
    | nil => cases h
    | cons b m =>
      obtain rfl : b = byte '.'.toNat := by simpa using h
      exact absurd (hafter _ (List.mem_cons_self ..)) (by decide)
  | @some b minus sg l hb hsg hne hl =>
    refine ⟨fun c m hcm => ?_, fun h => ?_⟩
    · obtain ⟨rfl, -⟩ := List.cons.inj hcm
      rcases hb with rfl | rfl <;> decide
    · obtain rfl : b = byte '.'.toNat := by simpa using h
      rcases hb with hb | hb <;> exact absurd hb (by decide)

theorem scan_numeral {point : List Byte} (hdigits : ∀ d ∈ n.digits, d < 10) (hpoint : SpellsPoint n.frac point)
    (hr : Stops r) (hdot : r.head? ≠ some (byte '.'.toNat)) :
    scanDigits .start (digitBytes n.whole ++ (point ++ r)) = (cint (-(unkept n.whole : Int))).bind (fun _ =>
      (cint n.places).map (fun _ => .ok (scanned n.whole n.frac (decide (point ≠ [])), r))) := by
  rcases n with ⟨negative, w, f, e⟩
  dsimp only [Numeral.digits, Numeral.places] at *
  have hw : ∀ d ∈ w, d < 10 := fun d hd => hdigits d (List.mem_append_left _ hd)
  have hf : ∀ d ∈ f, d < 10 := fun d hd => hdigits d (List.mem_append_right _ hd)
  cases hpoint with
  | none =>
    rw [List.nil_append, scan_whole hw hr hdot, show (([] : List Nat).length - unkept w : Int) = -(unkept w : Int) by
      rw [List.length_nil]
      omega]
    rcases hc : cint (-(unkept w : Int)) with _ | c
    · rfl
    · rfl
  | point l =>
    rw [List.cons_append, scan_point hw hf hr, if_neg hdot]
    rfl

/-- **Text that is a number is read as its digits come to.** -/
theorem parse_spelled {s : CString} (h : Spells n s.bytes) (r : Except String Int) :
    moneyParseDecimal s scale excess = some r ↔ n.Fits scale ∧
      r = moneyUnits n.negative ((significant n.digits).take 40) (((significant n.digits).drop 40).any (· ≠ 0))
        (n.kept scale) excess := by
  obtain ⟨point, ex, after, hpoint, hex, hafter, hbody⟩ := spelled_body h
  obtain ⟨hstops, hdot⟩ := exponent_stops hex hafter
  have hblank : skipBlanks after = [] := by
    have := skipBlanks_append (r := []) hafter (fun b m h => by cases h)
    rwa [List.append_nil] at this
  have hscan := scan_numeral h.digits hpoint hstops hdot
  unfold moneyParseDecimal
  rw [hbody]
  dsimp only
  rw [hscan]
  by_cases hwhole : IsInt (-(unkept n.whole : Int))
  swap
  · rw [cint, if_neg hwhole]
    exact iff_of_false (fun h => by cases h) (fun h => hwhole h.1.whole)
  by_cases hplaces : IsInt n.places
  swap
  · rw [cint, if_pos hwhole, cint, if_neg hplaces]
    exact iff_of_false (fun h => by cases h) (fun h => hplaces h.1.places)
  rw [cint, if_pos hwhole, cint, if_pos hplaces]
  show moneyFinish n.negative (scanned n.whole n.frac (decide (point ≠ []))) (ex ++ after) scale excess = some r ↔ _
  unfold moneyFinish
  have hseen : (scanned n.whole n.frac (decide (point ≠ []))).seenDigit = true := decide_eq_true h.some
  rw [hseen, if_neg (by decide), readExponent_spelled hex hafter]
  dsimp only
  rw [hblank, if_neg (not_not.2 rfl), Option.map_eq_some_iff]
  have hiff := @keptDigits_iff n scale (scanned n.whole n.frac (decide (point ≠ [])))
  constructor
  · rintro ⟨k, hk, rfl⟩
    obtain ⟨h1, h2, h3, rfl⟩ := (hiff rfl rfl).1 hk
    exact ⟨⟨hwhole, hplaces, h1, h2, h3⟩, rfl⟩
  · rintro ⟨hfits, rfl⟩
    exact ⟨_, (hiff rfl rfl).2 ⟨hfits.scaled, hfits.shift, hfits.kept, rfl⟩, rfl⟩

theorem finish_unspelled {st : Scan} {before sg point : List Byte} (hnone : ∀ n, ¬ Spells n s)
    (hbefore : ∀ b ∈ before, isBlank b = true) {negative : Bool} (hsg : SpellsSign negative sg) {w f : List Nat}
    (hpoint : SpellsPoint f point) (hw : ∀ d ∈ w ++ f, d < 10) (hseen : st.seenDigit = decide (w ++ f ≠ []))
    (hs : s = before ++ (sg ++ (digitBytes w ++ (point ++ r)))) :
    ∃ m, moneyFinish negative st r scale excess = some (.error m) := by
  unfold moneyFinish
  by_cases hempty : w ++ f = []
  · rw [hseen, if_pos (decide_eq_false (not_not.2 hempty))]
    exact ⟨_, rfl⟩
  rw [hseen, if_neg (by rw [decide_eq_true hempty]; decide)]
  rcases hexp : readExponent r with m | ⟨exponent, r'⟩
  · exact ⟨m, rfl⟩
  obtain ⟨e, ex, hex, rfl⟩ := readExponent_some hexp
  dsimp only
  by_cases hblank : skipBlanks r' = []
  · have hafter : ∀ b ∈ r', isBlank b = true := by
      have := List.dropWhile_eq_nil_iff.1 hblank
      exact this
    exact absurd ⟨hw, hempty, before, sg, point, ex, r', hbefore, hsg, hpoint, hex, hafter, hs⟩
      (hnone ⟨negative, w, f, e⟩)
  · rw [if_pos hblank]
    exact ⟨_, rfl⟩

/-- **Text that is no number is refused.** -/
theorem parse_unspelled {s : CString} (hnone : ∀ n, ¬ Spells n s.bytes) :
    (∃ m, moneyParseDecimal s scale excess = some (.error m)) ↔ Counted s.bytes := by
  rcases hsign : readSign (skipBlanks s.bytes) with ⟨negative, l⟩
  have hbody : body s.bytes = l := by rw [body, hsign]
  obtain ⟨sg, hsg, hskip⟩ := readSign_some hsign
  have hs : s.bytes = s.bytes.takeWhile isBlank ++ (sg ++ l) := by
    rw [← hskip]
    exact List.takeWhile_append_dropWhile.symm
  have hbefore : ∀ b ∈ s.bytes.takeWhile isBlank, isBlank b = true := fun b hb => List.mem_takeWhile_imp hb
  have hl := run_append l
  have hstops := dropWhile_stops l
  have hw := run_lt l
  unfold moneyParseDecimal
  rw [hsign]
  dsimp only
  have hcounted : Counted s.bytes ↔ IsInt (-(unkept (run l) : Int)) ∧
      IsInt ((fracOf l).length - unkept (run l) : Int) := by
    constructor
    · rintro ⟨h1, h2⟩
      rw [hbody] at h1 h2
      exact ⟨h1, h2⟩
    · rintro ⟨h1, h2⟩
      exact ⟨by rw [hbody]; exact h1, by rw [hbody]; exact h2⟩
  rw [hcounted]
  by_cases hwhole : IsInt (-(unkept (run l) : Int))
  swap
  · refine iff_of_false ?_ (fun h => hwhole h.1)
    have hscan : scanDigits .start l = none := by
      rw [← hl, scanDigits_digits _ hw, digits_whole, cint, if_neg hwhole]
      rfl
    rw [hscan]
    rintro ⟨m, h⟩
    cases h
  by_cases hdot : (l.dropWhile isDigit).head? = some (byte '.'.toNat)
  swap
  · have hfrac : fracOf l = [] := by
      unfold fracOf
      rcases hd : l.dropWhile isDigit with _ | ⟨b, m⟩
      · rfl
      · rw [hd] at hdot
        exact if_neg (fun h => hdot (by rw [h]; rfl))
    have hscan : scanDigits .start l = some (.ok (scanned (run l) [] false, l.dropWhile isDigit)) := by
      conv_lhs => rw [← hl]
      rw [scan_whole hw hstops hdot, cint, if_pos hwhole]
      rfl
    have hzero : ((fracOf l).length - unkept (run l) : Int) = -(unkept (run l) : Int) := by
      rw [hfrac, List.length_nil]
      omega
    rw [hscan, hzero]
    refine iff_of_true ?_ ⟨hwhole, hwhole⟩
    exact finish_unspelled hnone hbefore hsg .none (by rw [List.append_nil]; exact hw) rfl (by
      rw [List.nil_append, hl]
      exact hs)
  · obtain ⟨b, m, hd⟩ := List.exists_cons_of_ne_nil (show l.dropWhile isDigit ≠ [] by
      intro h
      rw [h] at hdot
      cases hdot)
    rw [hd] at hdot hl
    obtain rfl : b = byte '.'.toNat := by simpa using hdot
    have hfrac : fracOf l = run m := by
      unfold fracOf
      rw [hd]
      exact if_pos rfl
    have hm := run_append m
    have hscan := @scan_point (run l) (run m) (m.dropWhile isDigit) hw (run_lt m) (dropWhile_stops m)
    rw [hm, hl, cint, if_pos hwhole, Option.bind_some] at hscan
    rw [hfrac, hscan]
    by_cases hplaces : IsInt ((run m).length - unkept (run l) : Int)
    swap
    · rw [cint, if_neg hplaces]
      refine iff_of_false ?_ (fun h => hplaces h.2)
      rintro ⟨m, h⟩
      cases h
    rw [cint, if_pos hplaces, Option.map_some]
    refine iff_of_true ?_ ⟨hwhole, hplaces⟩
    by_cases hsecond : (m.dropWhile isDigit).head? = some (byte '.'.toNat)
    · rw [if_pos hsecond]
      exact ⟨_, rfl⟩
    rw [if_neg hsecond]
    refine finish_unspelled hnone hbefore hsg (.point (run m)) (fun d hd => ?_) rfl (by
      rw [List.cons_append, hm, hl]
      exact hs)
    rcases List.mem_append.1 hd with h | h
    · exact hw d h
    · exact run_lt m d h

/-! ## The number read -/

namespace Numeral

/-- The powers of ten that are not counted: of digits after the point past the fortieth, and of an exponent of more than
six digits. -/
def lost (n : Numeral) : Int :=
  ((significant n.digits).length - 40 : Nat) - unkept n.whole + (n.exponent - clampInt n.exponent)

theorem significant_split (hn : ∀ d ∈ n.digits, d < 10) :
    Significant ((significant n.digits).take 40) ((significant n.digits).drop 40) := by
  refine ⟨fun d hd => ?_, ?_, fun hne => ?_⟩
  · rw [List.take_append_drop] at hd
    exact hn d (List.dropWhile_subset _ hd)
  · have hstops := List.head?_dropWhile_not (fun d => decide (d = 0)) n.digits
    show (((significant n.digits).take 40).headD 1) ≠ 0
    have hstops' : ∀ d l, significant n.digits = d :: l → d ≠ 0 := by
      intro d l h
      unfold significant at h
      rw [h] at hstops
      simpa using hstops
    rcases hsig : significant n.digits with _ | ⟨d, l⟩
    · decide
    · exact hstops' d l hsig
  · rw [List.length_take]
    have := List.length_pos_iff.2 hne
    rw [List.length_drop] at this
    omega

theorem scaled_kept (n : Numeral) (scale : Int) :
    sign n.negative * scaled (significant n.digits) (n.kept scale) = n.value * (10 : ℚ) ^ (scale - n.lost) := by
  have hexp : n.kept scale - (significant n.digits).length = n.exponent - n.frac.length + (scale - n.lost) := by
    unfold kept places lost
    rw [List.length_take]
    omega
  rw [scaled, number_significant, hexp, zpow_add₀ (by norm_num), value]
  ring

/-- The number is read as it is: its digits are not half a unit with zeros written after it, and the powers of ten that
are not counted make no difference. -/
structure ReadRight (n : Numeral) (scale : Int) (excess : Excess) : Prop where
  half : ¬ (excess = .round ∧ 2 * |n.value * (10 : ℚ) ^ (scale - n.lost)| = 1 ∧ 2 ≤ (significant n.digits).length)
  counted : n.lost = 0 ∨ n.value = 0 ∨
    (excess = .round ∧ 2 * |n.value * (10 : ℚ) ^ scale| ≤ 1 ∧ 2 * |n.value * (10 : ℚ) ^ (scale - n.lost)| ≤ 1) ∨
      ∀ z, ¬ Accepts excess (n.value * (10 : ℚ) ^ scale) z ∧ ¬ Accepts excess (n.value * (10 : ℚ) ^ (scale - n.lost)) z

end Numeral

theorem halfWithZeros_iff {sig : List Nat} {keep : Int} (hlt : ∀ d ∈ sig, d < 10) (hlead : sig.headD 1 ≠ 0) :
    HalfWithZeros excess sig keep ↔ excess = .round ∧ 2 * scaled sig keep = 1 ∧ 2 ≤ sig.length := by
  constructor
  · rintro ⟨rfl, rfl, hlen, hhead, htail⟩
    refine ⟨rfl, ?_, hlen⟩
    rcases sig with _ | ⟨d, l⟩
    · exact absurd hlen (by decide)
    obtain rfl : d = 5 := hhead
    have hk : (0 : Int) + (l.length + 1 : Nat) = (5 :: l).length := by
      rw [List.length_cons]
      omega
    have hpos : (10 ^ l.length : ℚ) ≠ 0 := by positivity
    rw [scaled_div hk, digitNumber_cons, digitNumber_eq_zero.2 (show ∀ e ∈ l, e = 0 from htail), add_zero, pow_succ]
    push_cast
    rw [mul_div_assoc', div_eq_one_iff_eq (mul_ne_zero hpos (by norm_num))]
    ring
  · rintro ⟨rfl, hhalf, hlen⟩
    rcases sig with _ | ⟨d, l⟩
    · exact absurd hlen (by decide)
    have hd : 1 ≤ d := Nat.one_le_iff_ne_zero.2 hlead
    have hd10 := hlt d (List.mem_cons_self ..)
    have hl : digitNumber l < 10 ^ l.length := digitNumber_lt (fun e he => hlt e (List.mem_cons_of_mem _ he))
    have hpow : (10 ^ l.length : ℚ) ≤ digitNumber (d :: l) ∧ (digitNumber (d :: l) : ℚ) < 10 ^ (l.length + 1) := by
      have hlow : 10 ^ l.length ≤ digitNumber (d :: l) := by
        rw [digitNumber_cons]
        exact le_trans (Nat.le_mul_of_pos_left _ hd) (Nat.le_add_right _ _)
      have hhigh := digitNumber_lt hlt
      rw [List.length_cons] at hhigh
      exact ⟨by exact_mod_cast hlow, by exact_mod_cast hhigh⟩
    -- what is kept is none: else it is at least one, and under a tenth where the digits start below
    have hkeep : keep = 0 := by
      rcases lt_trichotomy keep 0 with hneg | hzero | hpos
      · have hle : scaled (d :: l) keep ≤ digitNumber (d :: l) / 10 ^ (l.length + 2) := by
          rw [scaled, div_eq_mul_inv, ← zpow_natCast, ← zpow_neg]
          refine mul_le_mul_of_nonneg_left ?_ (Nat.cast_nonneg _)
          refine zpow_le_zpow_right₀ (by norm_num) ?_
          rw [List.length_cons]
          push_cast
          omega
        have hlt : (digitNumber (d :: l) : ℚ) / 10 ^ (l.length + 2) < 1 / 10 := by
          rw [div_lt_div_iff₀ (by positivity) (by norm_num), one_mul, pow_succ]
          have := hpow.2
          linarith
        linarith
      · exact hzero
      · have hge : (digitNumber (d :: l) : ℚ) / 10 ^ l.length ≤ scaled (d :: l) keep := by
          rw [scaled, div_eq_mul_inv, ← zpow_natCast, ← zpow_neg]
          refine mul_le_mul_of_nonneg_left ?_ (Nat.cast_nonneg _)
          refine zpow_le_zpow_right₀ (by norm_num) ?_
          rw [List.length_cons]
          push_cast
          omega
        have hone : 1 ≤ (digitNumber (d :: l) : ℚ) / 10 ^ l.length := by
          rw [le_div_iff₀ (by positivity), one_mul]
          exact hpow.1
        linarith
    subst hkeep
    have hk : (0 : Int) + (l.length + 1 : Nat) = (d :: l).length := by
      rw [List.length_cons]
      omega
    have hnum : 2 * digitNumber (d :: l) = 10 ^ (l.length + 1) := by
      rw [scaled_div hk, mul_div_assoc', div_eq_one_iff_eq (by positivity)] at hhalf
      exact_mod_cast hhalf
    rw [digitNumber_cons, pow_succ] at hnum
    generalize hp : 10 ^ l.length = p at *
    have hd5 : d = 5 := by
      rcases lt_trichotomy d 5 with h | h | h
      · have := Nat.mul_le_mul_right p (show d + 1 ≤ 5 from h)
        rw [add_mul] at this
        omega
      · exact h
      · have := Nat.mul_le_mul_right p (show 6 ≤ d from h)
        omega
    subst hd5
    exact ⟨rfl, rfl, hlen, rfl, digitNumber_eq_zero.1 (show digitNumber l = 0 by omega)⟩

theorem not_near {a b : ℚ} {z : Int} (hz : z ≠ 0) (ha : Rounds a z) (hb : Rounds b z) (h : 10 * |b| ≤ |a|) : False := by
  have hone : (1 : ℚ) ≤ |(z : ℚ)| := by exact_mod_cast Int.one_le_abs hz
  have hnear : |a - b| ≤ 1 := by
    have htri : |a - b| ≤ |a - z| + |b - z| := by
      rw [show a - b = (a - z) - (b - z) by ring]
      exact abs_sub _ _
    have := ha.1
    have := hb.1
    linarith
  have hlow : |(z : ℚ)| ≤ |b| + |b - z| := by
    have := abs_sub b (b - z)
    rwa [sub_sub_cancel] at this
  have hfar : |a| ≤ |b| + |a - b| := by
    have := abs_add_le b (a - b)
    rwa [add_sub_cancel] at this
  have := hb.1
  linarith

/-- Powers of ten make no difference to nothing, to less than half a unit, and to what is refused. -/
theorem same_accepts {x : ℚ} {j : Int} (hj : j ≠ 0) :
    (∀ z, Accepts excess (x * (10 : ℚ) ^ (-j)) z ↔ Accepts excess x z) ↔
      x = 0 ∨ (excess = .round ∧ 2 * |x| ≤ 1 ∧ 2 * |x * (10 : ℚ) ^ (-j)| ≤ 1) ∨
        ∀ z, ¬ Accepts excess x z ∧ ¬ Accepts excess (x * (10 : ℚ) ^ (-j)) z := by
  have hten : (0 : ℚ) < (10 : ℚ) ^ (-j) := zpow_pos (by norm_num) _
  constructor
  · intro h
    by_cases hex : ∃ z, Accepts excess x z
    swap
    · exact .inr (.inr (fun z => ⟨fun hz => hex ⟨z, hz⟩, fun hz => hex ⟨z, (h z).1 hz⟩⟩))
    obtain ⟨z, hz⟩ := hex
    have hz' := (h z).2 hz
    by_cases hzero : z = 0
    · subst hzero
      cases excess with
      | reject =>
        have heq : x = ((0 : Int) : ℚ) := hz.2
        exact .inl (by rw [heq, Int.cast_zero])
      | round => exact .inr (.inl ⟨rfl, rounds_zero.1 (accepts_rounds hz), rounds_zero.1 (accepts_rounds hz')⟩)
    · have habs : |x * (10 : ℚ) ^ (-j)| = |x| * (10 : ℚ) ^ (-j) := by rw [abs_mul, abs_of_pos hten]
      rcases lt_or_gt_of_ne hj with hneg | hpos
      · have hle : (10 : ℚ) ^ (1 : Int) ≤ (10 : ℚ) ^ (-j) := zpow_le_zpow_right₀ (by norm_num) (by omega)
        rw [zpow_one] at hle
        refine (not_near hzero (accepts_rounds hz') (accepts_rounds hz) ?_).elim
        rw [habs, mul_comm]
        exact mul_le_mul_of_nonneg_left hle (abs_nonneg x)
      · have hle : (10 : ℚ) ^ (-j) ≤ (10 : ℚ) ^ (-1 : Int) := zpow_le_zpow_right₀ (by norm_num) (by omega)
        rw [zpow_neg_one] at hle
        refine (not_near hzero (accepts_rounds hz) (accepts_rounds hz') ?_).elim
        rw [habs]
        have := mul_le_mul_of_nonneg_left hle (abs_nonneg x)
        linarith
  · rintro (rfl | ⟨rfl, hx, hx'⟩ | h) z
    · rw [zero_mul]
    · have hzero : ∀ {y : ℚ}, 2 * |y| ≤ 1 → (Accepts .round y z ↔ z = 0) := by
        intro y hy
        constructor
        · exact fun ha => (accepts_rounds ha).unique (rounds_zero.2 hy)
        · rintro rfl
          exact ⟨⟨by decide, by decide⟩, rounds_zero.2 hy⟩
      rw [hzero hx, hzero hx']
    · exact iff_of_false (h z).2 (h z).1

theorem half_wrong {x : ℚ} {j : Int} {negative : Bool} (hhalf : 2 * |x * (10 : ℚ) ^ (-j)| = 1) :
    ¬ Accepts .round x (signed negative 1) := by
  intro h
  have hround := accepts_rounds h
  have hz : signed negative 1 ≠ 0 := by cases negative <;> decide
  have hx : 2 * |x| = (10 : ℚ) ^ j := by
    have habs : |x| = |x * (10 : ℚ) ^ (-j)| * (10 : ℚ) ^ j := by
      rw [abs_mul, abs_of_pos (show (0 : ℚ) < (10 : ℚ) ^ (-j) from zpow_pos (by norm_num) _), mul_assoc,
        ← zpow_add₀ (by norm_num), neg_add_cancel, zpow_zero, mul_one]
    rw [habs, ← mul_assoc, hhalf, one_mul]
  by_cases hj : 1 ≤ j
  · -- five or more, with zeros: a whole number
    have hge : (10 : ℚ) ≤ (10 : ℚ) ^ j := by
      have := zpow_le_zpow_right₀ (show (1 : ℚ) ≤ 10 by norm_num) hj
      rwa [zpow_one] at this
    have hone : |((signed negative 1 : Int) : ℚ)| = 1 := by cases negative <;> simp [signed]
    have htri : |x| ≤ |x - (signed negative 1 : Int)| + |((signed negative 1 : Int) : ℚ)| := by
      have := abs_add_le (x - (signed negative 1 : Int)) ((signed negative 1 : Int) : ℚ)
      rwa [sub_add_cancel] at this
    have := hround.1
    linarith
  · have hle : (10 : ℚ) ^ j ≤ 1 := by
      have := zpow_le_zpow_right₀ (show (1 : ℚ) ≤ 10 by norm_num) (show j ≤ 0 by omega)
      rwa [zpow_zero] at this
    exact hz (hround.unique (rounds_zero.2 (by linarith)))

/-- The text is read as its number at the scale, or refused where that is no whole number in range, or it is no
number. -/
structure ReadsExactly (s : CString) (scale : Int) (excess : Excess) : Prop where
  spelled : ∀ n, Spells n s.bytes → ∃ r, moneyParseDecimal s scale excess = some r ∧
    ∀ z, r = .ok z ↔ Accepts excess (n.value * (10 : ℚ) ^ scale) z
  unspelled : (∀ n, ¬ Spells n s.bytes) → ∃ m, moneyParseDecimal s scale excess = some (.error m)

theorem reads_spelled {s : CString} (h : Spells n s.bytes) : (∃ r, moneyParseDecimal s scale excess = some r ∧
    ∀ z, r = .ok z ↔ Accepts excess (n.value * (10 : ℚ) ^ scale) z) ↔ n.Fits scale ∧ n.ReadRight scale excess := by
  have hsig := Numeral.significant_split h.digits
  have happ : (significant n.digits).take 40 ++ (significant n.digits).drop 40 = significant n.digits :=
    List.take_append_drop ..
  have hlt : ∀ d ∈ significant n.digits, d < 10 := by
    rw [← happ]
    exact hsig.lt
  have hlead : (significant n.digits).headD 1 ≠ 0 := by
    have h := hsig.leads
    revert h
    rcases significant n.digits with _ | ⟨d, l⟩
    · exact fun _ => by decide
    · exact fun h => h
  have hvalue := n.scaled_kept scale
  have hshift : n.value * (10 : ℚ) ^ (scale - n.lost) = n.value * (10 : ℚ) ^ scale * (10 : ℚ) ^ (-n.lost) := by
    rw [mul_assoc, ← zpow_add₀ (by norm_num), sub_eq_add_neg]
  have habs : |n.value * (10 : ℚ) ^ (scale - n.lost)| = scaled (significant n.digits) (n.kept scale) := by
    rw [← hvalue, abs_mul, show |sign n.negative| = 1 by cases n.negative <;> simp [sign], one_mul, abs_of_nonneg]
    exact mul_nonneg (Nat.cast_nonneg _) (zpow_pos (by norm_num) _).le
  have hhalf := @halfWithZeros_iff excess _ (n.kept scale) hlt hlead
  rw [← habs] at hhalf
  have hunits : ¬ HalfWithZeros excess (significant n.digits) (n.kept scale) → ∀ z,
      moneyUnits n.negative ((significant n.digits).take 40) (((significant n.digits).drop 40).any (· ≠ 0))
        (n.kept scale) excess = .ok z ↔ Accepts excess (n.value * (10 : ℚ) ^ (scale - n.lost)) z := by
    intro hh z
    have hiff := @units_iff _ _ n.negative excess (n.kept scale) hsig (by rw [happ]; exact hh) z
    rwa [happ, hvalue] at hiff
  constructor
  · rintro ⟨r, hr, hz⟩
    obtain ⟨hfits, rfl⟩ := (parse_spelled h r).1 hr
    by_cases hh : HalfWithZeros excess (significant n.digits) (n.kept scale)
    · obtain ⟨rfl, hx, -⟩ := hhalf.1 hh
      have hone := (hz _).1 (units_half hsig (by rw [happ]; exact hh))
      rw [hshift] at hx
      exact absurd hone (half_wrong hx)
    · refine ⟨hfits, fun hx => hh (hhalf.2 hx), ?_⟩
      by_cases hlost : n.lost = 0
      · exact .inl hlost
      have hsame : ∀ z, Accepts excess (n.value * (10 : ℚ) ^ scale * (10 : ℚ) ^ (-n.lost)) z ↔
          Accepts excess (n.value * (10 : ℚ) ^ scale) z := fun z => by
        rw [← hshift, ← hunits hh z, hz z]
      rw [hshift]
      refine .inr ((same_accepts hlost).1 hsame |>.imp_left (fun h => ?_))
      exact (mul_eq_zero.1 h).resolve_right (zpow_pos (by norm_num) _).ne'
  · rintro ⟨hfits, hright⟩
    refine ⟨_, (parse_spelled h _).2 ⟨hfits, rfl⟩, fun z => ?_⟩
    rw [hunits (fun hh => hright.half (hhalf.1 hh)) z]
    rcases hright.counted with hlost | hzero | hsmall
    · rw [hlost, sub_zero]
    · rw [hzero, zero_mul, zero_mul]
    · by_cases hlost : n.lost = 0
      · rw [hlost, sub_zero]
      rw [hshift] at hsmall ⊢
      exact (same_accepts hlost).2 (.inr hsmall) z

/-- **Money text is read exactly** just where nothing of it is lost, and no half unit has zeros written after it. -/
theorem readsExactly_iff {s : CString} : ReadsExactly s scale excess ↔
    (∀ n, Spells n s.bytes → n.Fits scale ∧ n.ReadRight scale excess) ∧
    ((∀ n, ¬ Spells n s.bytes) → Counted s.bytes) := by
  constructor
  · rintro ⟨hspelled, hunspelled⟩
    exact ⟨fun n hn => (reads_spelled hn).1 (hspelled n hn), fun h => (parse_unspelled h).1 (hunspelled h)⟩
  · rintro ⟨hspelled, hcounted⟩
    exact ⟨fun n hn => (reads_spelled hn).2 (hspelled n hn), fun h => (parse_unspelled h).2 (hcounted h)⟩

end

end Money
end Gbasic
