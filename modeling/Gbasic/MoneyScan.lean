import Gbasic.MoneyUnits
/-!
# MoneyScan — a number as it is spelled, and as it is scanned

A decimal number's spelling (`Spells`), and what the scan keeps of it (`scan_numeral`): the first forty digits from one
that is not zero, whether any past them is not, and the places after the point less the digits before it that were not
kept.
-/
namespace Gbasic
namespace Money

open Dates (cint cint_eq_some IsInt)

/-! ## Spelling -/

structure Numeral where
  negative : Bool
  whole : List Nat
  frac : List Nat
  exponent : Int

def Numeral.digits (n : Numeral) : List Nat := n.whole ++ n.frac

def Numeral.value (n : Numeral) : ℚ := sign n.negative *
    (digitNumber n.digits * (10 : ℚ) ^ (n.exponent - n.frac.length))

def digitBytes (l : List Nat) : List Byte := l.map (fun d => byte (48 + d))

inductive SpellsSign : Bool → List Byte → Prop
  | none : SpellsSign false []
  | plus : SpellsSign false [byte '+'.toNat]
  | minus : SpellsSign true [byte '-'.toNat]

inductive SpellsPoint : List Nat → List Byte → Prop
  | none : SpellsPoint [] []
  | point (l : List Nat) : SpellsPoint l (byte '.'.toNat :: digitBytes l)

inductive SpellsExponent : Int → List Byte → Prop
  | none : SpellsExponent 0 []
  | some {b : Byte} {minus : Bool} {sg : List Byte} {l : List Nat} : b = byte 'e'.toNat ∨ b = byte 'E'.toNat →
      SpellsSign minus sg → l ≠ [] → (∀ d ∈ l, d < 10) →
      SpellsExponent (if minus then -digitNumber l else digitNumber l) (b :: (sg ++ digitBytes l))

/-- A text is a number: blanks, a sign, digits with a point among them, an exponent, blanks. -/
structure Spells (n : Numeral) (s : List Byte) : Prop where
  digits : ∀ d ∈ n.digits, d < 10
  some : n.digits ≠ []
  spelled : ∃ before sg point ex after, (∀ b ∈ before, isBlank b = true) ∧ SpellsSign n.negative sg ∧
    SpellsPoint n.frac point ∧ SpellsExponent n.exponent ex ∧ (∀ b ∈ after, isBlank b = true) ∧
      s = before ++ (sg ++ (digitBytes n.whole ++ (point ++ (ex ++ after))))

/-! ## Bytes -/

theorem digitByte {d : Nat} (hd : d < 10) : isDigit (byte (48 + d)) = true ∧ (byte (48 + d)).val - 48 = d := by
  interval_cases d <;> decide

def Stops (l : List Byte) : Prop := ∀ b m, l = b :: m → isDigit b = false

/-- The digits that some bytes begin with. -/
def run (l : List Byte) : List Nat := (l.takeWhile isDigit).map (fun b => b.val - 48)

theorem run_lt (l : List Byte) : ∀ d ∈ run l, d < 10 := by
  intro d hd
  obtain ⟨b, hb, rfl⟩ := List.mem_map.1 hd
  have h := List.mem_takeWhile_imp hb
  unfold isDigit at h
  rw [decide_eq_true_eq] at h
  omega

theorem run_append (l : List Byte) : digitBytes (run l) ++ l.dropWhile isDigit = l := by
  have hback : digitBytes (run l) = l.takeWhile isDigit := by
    unfold digitBytes run
    rw [List.map_map]
    conv_rhs => rw [← List.map_id (l.takeWhile isDigit)]
    refine List.map_congr_left (fun b hb => ?_)
    have h := List.mem_takeWhile_imp hb
    unfold isDigit at h
    rw [decide_eq_true_eq] at h
    rw [Function.comp_apply, Nat.add_sub_cancel' h.1, byte_of_val]
    rfl
  rw [hback, List.takeWhile_append_dropWhile]

theorem dropWhile_stops (l : List Byte) : Stops (l.dropWhile isDigit) := by
  intro b m h
  have hhead := List.head?_dropWhile_not isDigit l
  rw [h] at hhead
  simpa using hhead

/-! ## What the scan keeps -/

def significant (l : List Nat) : List Nat := l.dropWhile (· = 0)

def unkept (w : List Nat) : Nat := (significant w).length - 40

def scanned (w f : List Nat) (after : Bool) : Scan where
  digits := (significant (w ++ f)).take 40
  pointExp := f.length - unkept w
  afterPoint := after
  seenDigit := decide (w ++ f ≠ [])
  droppedNonzero := ((significant (w ++ f)).drop 40).any (· ≠ 0)

theorem significant_snoc (l : List Nat) (d : Nat) :
    significant (l ++ [d]) = if significant l = [] ∧ d = 0 then [] else significant l ++ [d] := by
  have happend : significant (l ++ [d]) = if (significant l).isEmpty then significant [d] else significant l ++ [d] :=
    List.dropWhile_append
  rw [happend]
  rcases significant l with _ | ⟨e, m⟩
  · rw [List.isEmpty_nil, if_pos rfl]
    by_cases hd : d = 0
    · rw [if_pos ⟨rfl, hd⟩, hd]
      rfl
    · rw [if_neg (fun h => hd h.2), significant, List.dropWhile_cons_of_neg (by simpa using hd)]
      rfl
  · rw [List.isEmpty_cons, if_neg Bool.false_ne_true, if_neg (fun h => by cases h.1)]

theorem number_significant (l : List Nat) : digitNumber (significant l) = digitNumber l := by
  induction l with
  | nil => rfl
  | cons d l ih =>
    unfold significant at *
    by_cases hd : d = 0
    · subst hd
      rw [List.dropWhile_cons_of_pos (by decide), ih, digitNumber_cons, zero_mul, zero_add]
    · rw [List.dropWhile_cons_of_neg (by simpa using hd)]

theorem digit_eq {st : Scan} {l : List Nat} (hdigits : st.digits = (significant l).take 40)
    (hdropped : st.droppedNonzero = ((significant l).drop 40).any (· ≠ 0)) (d : Nat) :
    st.digit d = (if st.afterPoint then cint (st.pointExp + 1) else some st.pointExp).bind (fun e =>
      (if st.afterPoint = true ∨ (significant l).length < 40 then some e else cint (e - 1)).map (fun e =>
        ⟨(significant (l ++ [d])).take 40, e, st.afterPoint, true,
          ((significant (l ++ [d])).drop 40).any (· ≠ 0)⟩)) := by
  unfold Scan.digit MONEY_MAX_DIGITS
  rw [hdigits, hdropped, significant_snoc]
  refine congrArg _ (funext fun e => ?_)
  by_cases hzero : significant l = [] ∧ d = 0
  · rw [if_pos hzero, if_pos ⟨by rw [hzero.1]; rfl, hzero.2⟩, hzero.1, if_pos (.inr (by decide))]
    rfl
  have htake : ¬ ((significant l).take 40 = [] ∧ d = 0) := by
    rintro ⟨h, hd⟩
    refine hzero ⟨?_, hd⟩
    rcases List.take_eq_nil_iff.1 h with h | h
    · exact absurd h (by decide)
    · exact h
  rw [if_neg hzero, if_neg htake, List.length_take]
  by_cases hlen : (significant l).length < 40
  · have hle : (significant l ++ [d]).length ≤ 40 := by
      rw [List.length_append, List.length_singleton]
      exact hlen
    rw [if_pos (by omega), if_pos (.inr hlen), List.take_of_length_le hlen.le, List.take_of_length_le hle,
      List.drop_of_length_le hlen.le, List.drop_of_length_le hle]
    rfl
  · have hge := not_lt.1 hlen
    rw [if_neg (by omega), List.take_append_of_le_length hge, List.drop_append_of_le_length hge, List.any_append]
    rcases st.afterPoint
    · rw [if_neg Bool.false_ne_true, if_neg (show ¬ (false = true ∨ (significant l).length < 40) by simp [hge])]
      simp
    · rw [if_pos rfl, if_pos (show true = true ∨ (significant l).length < 40 from .inl rfl)]
      simp

theorem unkept_snoc (l : List Nat) (d : Nat) :
    unkept (l ++ [d]) = if (significant l).length < 40 then unkept l else unkept l + 1 := by
  unfold unkept
  rw [significant_snoc]
  by_cases hzero : significant l = [] ∧ d = 0
  · rw [if_pos hzero, hzero.1, if_pos (by decide)]
  · rw [if_neg hzero, List.length_append, List.length_singleton]
    split_ifs <;> omega

theorem digit_whole (w : List Nat) (d : Nat) (hint : IsInt (-(unkept w : Int))) : (scanned w [] false).digit d =
    (cint (-(unkept (w ++ [d]) : Int))).map (fun _ => scanned (w ++ [d]) [] false) := by
  have hmade : ∀ e : Int, e = -(unkept (w ++ [d]) : Int) →
      (⟨(significant (w ++ [d])).take 40, e, false, true, ((significant (w ++ [d])).drop 40).any (· ≠ 0)⟩ : Scan) =
        scanned (w ++ [d]) [] false := by
    rintro e rfl
    unfold scanned
    simp
  have hexp : (scanned w [] false).pointExp = -(unkept w : Int) := by
    show ((0 : Nat) : Int) - unkept w = _
    omega
  rw [digit_eq (l := w) (by rw [scanned, List.append_nil]) (by rw [scanned, List.append_nil]) d, hexp, unkept_snoc]
  show (Option.bind (some _) _) = _
  rw [Option.bind_some, show (scanned w [] false).afterPoint = false from rfl]
  by_cases hlen : (significant w).length < 40
  · rw [if_pos (.inr hlen), if_pos hlen, cint, if_pos hint, Option.map_some, Option.map_some, hmade]
    rw [unkept_snoc, if_pos hlen]
  · have hsub : -(unkept w : Int) - 1 = -((unkept w + 1 : Nat) : Int) := by omega
    rw [if_neg (by simpa using hlen), if_neg hlen, hsub]
    rcases h : cint (-((unkept w + 1 : Nat) : Int)) with _ | e
    · rfl
    · rw [Option.map_some, Option.map_some, hmade]
      rw [unkept_snoc, if_neg hlen, (cint_eq_some.1 h).2]

theorem digit_frac (w f : List Nat) (d : Nat) : (scanned w f true).digit d =
    (cint ((f ++ [d]).length - unkept w : Int)).map (fun _ => scanned w (f ++ [d]) true) := by
  have hexp : (scanned w f true).pointExp + 1 = ((f ++ [d]).length - unkept w : Int) := by
    show ((f.length : Int) - unkept w) + 1 = _
    rw [List.length_append, List.length_singleton]
    push_cast
    ring
  rw [digit_eq (l := w ++ f) rfl rfl d, show (scanned w f true).afterPoint = true from rfl, if_pos rfl, hexp]
  rcases h : cint ((f ++ [d]).length - unkept w : Int) with _ | e
  · rfl
  · rw [Option.bind_some, if_pos (.inl rfl), Option.map_some, Option.map_some, ← (cint_eq_some.1 h).2]
    unfold scanned
    simp

/-! ## The scan -/

theorem digits_whole (w : List Nat) : w.foldlM Scan.digit Scan.start =
    (cint (-(unkept w : Int))).map (fun _ => scanned w [] false) := by
  induction w using List.reverseRecOn with
  | nil => rfl
  | append_singleton w d ih =>
    have hle := unkept_snoc w d
    rw [List.foldlM_append, ih]
    by_cases hint : IsInt (-(unkept w : Int))
    · rw [cint, if_pos hint]
      show ((scanned w [] false).digit d).bind some = _
      rw [Option.bind_fun_some, digit_whole w d hint]
    · have hnot : ¬ IsInt (-(unkept (w ++ [d]) : Int)) := fun h => hint ⟨by
        have := h.1
        split_ifs at hle <;> omega, by omega⟩
      rw [cint, cint, if_neg hint, if_neg hnot]
      rfl

theorem digits_frac {w : List Nat} (hw : IsInt (-(unkept w : Int))) (f : List Nat) :
    f.foldlM Scan.digit (scanned w [] true) = (cint (f.length - unkept w : Int)).map (fun _ => scanned w f true) := by
  induction f using List.reverseRecOn with
  | nil =>
    have hzero : (([] : List Nat).length - unkept w : Int) = -(unkept w : Int) := by
      rw [List.length_nil]
      omega
    rw [hzero, cint, if_pos hw]
    rfl
  | append_singleton f d ih =>
    rw [List.foldlM_append, ih]
    by_cases hint : IsInt (f.length - unkept w : Int)
    · rw [cint, if_pos hint]
      show ((scanned w f true).digit d).bind some = _
      rw [Option.bind_fun_some, digit_frac w f d]
    · have hnot : ¬ IsInt ((f ++ [d]).length - unkept w : Int) := by
        rw [List.length_append, List.length_singleton]
        push_cast
        intro h
        have h1 := hw.1
        have h2 := h.2
        exact hint ⟨by omega, by omega⟩
      rw [cint, cint, if_neg hint, if_neg hnot]
      rfl

theorem scanDigits_digits {r : List Byte} : ∀ {l : List Nat} (st : Scan), (∀ d ∈ l, d < 10) →
    scanDigits st (digitBytes l ++ r) = (l.foldlM Scan.digit st).bind (fun st => scanDigits st r)
  | [], _, _ => rfl
  | d :: l, st, hl => by
    have hd := hl d (List.mem_cons_self ..)
    obtain ⟨hdigit, hval⟩ := digitByte hd
    have hpoint : byte (48 + d) ≠ byte '.'.toNat := by
      intro h
      rw [h] at hdigit
      exact absurd hdigit (by decide)
    show scanDigits st (byte (48 + d) :: (digitBytes l ++ r)) = _
    rw [scanDigits, if_neg hpoint, hdigit, if_neg (by decide), hval, List.foldlM_cons]
    rcases st.digit d with _ | st'
    · rfl
    · exact scanDigits_digits st' (fun e he => hl e (List.mem_cons_of_mem _ he))

theorem scanDigits_stops {r : List Byte} (hr : Stops r) (hpoint : r.head? ≠ some (byte '.'.toNat)) (st : Scan) :
    scanDigits st r = some (.ok (st, r)) := by
  cases r with
  | nil => rfl
  | cons b m => rw [scanDigits, if_neg (fun h => hpoint (by rw [h]; rfl)), if_pos (hr b m rfl)]

theorem scan_whole {w : List Nat} {r : List Byte} (hw : ∀ d ∈ w, d < 10) (hr : Stops r)
    (hpoint : r.head? ≠ some (byte '.'.toNat)) :
    scanDigits .start (digitBytes w ++ r) = (cint (-(unkept w : Int))).map (fun _ => .ok (scanned w [] false, r)) := by
  rw [scanDigits_digits _ hw, digits_whole]
  rcases cint (-(unkept w : Int)) with _ | e
  · rfl
  · exact scanDigits_stops hr hpoint _

theorem scan_point {w f : List Nat} {r : List Byte} (hw : ∀ d ∈ w, d < 10) (hf : ∀ d ∈ f, d < 10) (hr : Stops r) :
    scanDigits .start (digitBytes w ++ (byte '.'.toNat :: (digitBytes f ++ r))) = (cint (-(unkept w : Int))).bind
    (fun _ =>
      (cint (f.length - unkept w : Int)).map (fun _ =>
        if r.head? = some (byte '.'.toNat) then .error "money text has more than one decimal point"
        else .ok (scanned w f true, r))) := by
  rw [scanDigits_digits _ hw, digits_whole]
  rcases hint : cint (-(unkept w : Int)) with _ | e
  · rfl
  have hstart : scanDigits (scanned w [] false) (byte '.'.toNat :: (digitBytes f ++ r)) =
      scanDigits (scanned w [] true) (digitBytes f ++ r) := by
    rw [scanDigits, if_pos rfl, if_neg (show ¬ (scanned w [] false).afterPoint = true from Bool.false_ne_true)]
    rfl
  rw [Option.map_some, Option.bind_some, hstart, scanDigits_digits _ hf, digits_frac (cint_eq_some.1 hint).1,
    Option.bind_some]
  rcases cint (f.length - unkept w : Int) with _ | e
  · rfl
  rw [Option.map_some, Option.bind_some, Option.map_some]
  by_cases hpoint : r.head? = some (byte '.'.toNat)
  · rw [if_pos hpoint]
    cases r with
    | nil => cases hpoint
    | cons b m =>
      obtain rfl : b = byte '.'.toNat := by simpa using hpoint
      rw [scanDigits, if_pos rfl, if_pos (show (scanned w f true).afterPoint = true from rfl)]
  · rw [if_neg hpoint]
    exact scanDigits_stops hr hpoint _

/-! ## Signs, exponents and blanks -/

theorem skipBlanks_append {l r : List Byte} (hl : ∀ b ∈ l, isBlank b = true)
    (hr : ∀ b m, r = b :: m → isBlank b = false) :
    skipBlanks (l ++ r) = r := by
  unfold skipBlanks
  rw [List.dropWhile_append_of_pos hl]
  cases r with
  | nil => rfl
  | cons b m => rw [List.dropWhile_cons_of_neg (by rw [hr b m rfl]; decide)]

theorem readSign_spelled {negative : Bool} {sg r : List Byte} (hsg : SpellsSign negative sg)
    (hr : ∀ b m, r = b :: m → b ≠ byte '+'.toNat ∧ b ≠ byte '-'.toNat) : readSign (sg ++ r) = (negative, r) := by
  cases hsg with
  | none =>
    cases r with
    | nil => rfl
    | cons b m =>
      have hb := hr b m rfl
      rw [List.nil_append, readSign, if_neg (not_or.2 hb)]
  | plus => rfl
  | minus => rfl

theorem readSign_some {l m : List Byte} {negative : Bool} (h : readSign l = (negative, m)) :
    ∃ sg, SpellsSign negative sg ∧ l = sg ++ m := by
  cases l with
  | nil =>
    cases h
    exact ⟨[], .none, rfl⟩
  | cons b l =>
    rw [readSign] at h
    split_ifs at h with hsign
    · obtain ⟨rfl, rfl⟩ := Prod.mk.inj h
      rcases hsign with rfl | rfl
      · exact ⟨_, .plus, rfl⟩
      · exact ⟨_, .minus, rfl⟩
    · cases h
      exact ⟨[], .none, rfl⟩

def clamp (n : Nat) : Nat := if n < 1000000 then n else clamp (n / 10)

theorem clamp_small {n : Nat} (h : n < 1000000) : clamp n = n := by
  rw [clamp, if_pos h]

theorem clamp_le (n : Nat) (h : 100000 ≤ n) : 100000 ≤ clamp n := by
  induction n using Nat.strong_induction_on with
  | _ n ih =>
    rw [clamp]
    split_ifs with hlt
    · exact h
    · exact ih (n / 10) (by omega) (by omega)

theorem clampedDigits_eq {l : List Nat} {r : List Byte} (hr : Stops r) : ∀ (m : Nat) (e : Nat), (∀ d ∈ l, d < 10) →
    e = clamp m → clampedDigits e (digitBytes l ++ r) = (clamp (m * 10 ^ l.length + digitNumber l), r) := by
  induction l with
  | nil =>
    intro m e _ he
    rw [List.length_nil, pow_zero, mul_one, digitNumber_nil, add_zero, ← he]
    cases r with
    | nil => rfl
    | cons b t =>
      show clampedDigits e (b :: t) = _
      rw [clampedDigits, hr b t rfl, if_neg (by decide)]
  | cons d l ih =>
    intro m e hl he
    have hd := hl d (List.mem_cons_self ..)
    obtain ⟨hdigit, hval⟩ := digitByte hd
    show clampedDigits e (byte (48 + d) :: (digitBytes l ++ r)) = _
    rw [clampedDigits, hdigit, if_pos rfl, hval,
      ih (m * 10 + d) _ (fun e he => hl e (List.mem_cons_of_mem _ he)) ?_, digitNumber_cons, List.length_cons]
    · congr 2
      ring
    · have hm : clamp m < 100000 ↔ m < 100000 := by
        constructor
        · intro h
          by_contra hge
          exact absurd (clamp_le m (not_lt.1 hge)) (not_le.2 h)
        · intro h
          rw [clamp, if_pos (by omega)]
          exact h
      subst he
      by_cases hlt : m < 100000
      · rw [if_pos (hm.2 hlt), clamp, if_pos (by omega), clamp, if_pos (by omega)]
      · rw [if_neg (fun h => hlt (hm.1 h))]
        conv_rhs => rw [clamp, if_neg (by omega)]
        congr 1
        omega

end Money
end Gbasic
