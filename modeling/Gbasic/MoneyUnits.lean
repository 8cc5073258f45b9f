import Gbasic.MoneyText
/-!
# MoneyUnits — what digits come to

So many digits kept are a quotient by a power of ten, whose rounding the next digit and what follows it decide
(`roundHalf_iff`).  But for a half written with zeros after it, where nothing is kept, the units are those of the number
(`units_iff`).
-/
namespace Gbasic
namespace Money

open List (length_cons headD_cons tail_cons mem_cons_self cons_append any_append)

/-! ## What is to be answered -/

def InLong (z : Int) : Prop := -9223372036854775808 ≤ z ∧ z ≤ 9223372036854775807

def Accepts (excess : Excess) (x : ℚ) (z : Int) : Prop :=
  InLong z ∧ match excess with
    | .reject => x = z
    | .round => Rounds x z

def sign (negative : Bool) : ℚ := if negative then -1 else 1

section
variable {negative : Bool} {excess : Excess} {y : ℚ} {mag : Nat}

theorem signed_cast (negative : Bool) (mag : Nat) : ((signed negative mag : Int) : ℚ) = sign negative * mag := by
  cases negative
  · simp [signed, sign]
  · simp [signed, sign]

theorem signed_inLong : InLong (signed negative mag) ↔ mag ≤ limitOf negative := by
  unfold InLong signed limitOf
  cases negative
  · rw [if_neg (by decide), if_neg (by decide)]
    omega
  · rw [if_pos rfl, if_pos rfl]
    omega

theorem rounds_sign (hy : Rounds y mag) : Rounds (sign negative * y) (signed negative mag) := by
  cases negative
  · simpa [sign, signed] using hy
  · simpa [sign, signed] using hy.neg

theorem accepts_rounds {x : ℚ} {z : Int} (h : Accepts excess x z) : Rounds x z := by
  cases excess with
  | reject => exact h.2 ▸ Rounds.intCast z
  | round => exact h.2

theorem accepts_ok (hy : Rounds y mag) (hle : mag ≤ limitOf negative) (hreject : excess = .reject → y = mag) (z : Int) :
    (Except.ok (signed negative mag) : Except String Int) = .ok z ↔ Accepts excess (sign negative * y) z := by
  constructor
  · intro h
    cases h
    refine ⟨signed_inLong.2 hle, ?_⟩
    cases excess with
    | reject => rw [signed_cast, hreject rfl]
    | round => exact rounds_sign hy
  · intro h
    rw [(accepts_rounds h).unique (rounds_sign hy)]

theorem accepts_error (hy : Rounds y mag) (h : limitOf negative < mag ∨ excess = .reject ∧ y ≠ mag) (m : String)
    (z : Int) :
    (Except.error m : Except String Int) = .ok z ↔ Accepts excess (sign negative * y) z := by
  refine iff_of_false (fun h => by cases h) (fun ha => ?_)
  obtain rfl := (accepts_rounds ha).unique (rounds_sign hy)
  rcases h with hlt | ⟨rfl, hne⟩
  · exact absurd (signed_inLong.1 ha.1) (not_le.2 hlt)
  · have heq : sign negative * y = ((signed negative mag : Int) : ℚ) := ha.2
    rw [signed_cast] at heq
    have hsign : sign negative ≠ 0 := by unfold sign; split_ifs <;> norm_num
    exact hne (mul_left_cancel₀ hsign heq)

end

/-! ## Digits kept -/

def firstDigits : Nat → List Nat → List Nat
  | 0, _ => []
  | k + 1, l => l.headD 0 :: firstDigits k l.tail

theorem firstDigits_length : ∀ (k : Nat) (l : List Nat), (firstDigits k l).length = k
  | 0, _ => rfl
  | k + 1, l => by rw [firstDigits, length_cons, firstDigits_length]

theorem firstDigits_take : ∀ {k : Nat} {l : List Nat}, k ≤ l.length → firstDigits k l = l.take k
  | 0, _, _ => rfl
  | k + 1, [], h => absurd h (Nat.not_succ_le_zero k)
  | k + 1, d :: l, h => by
    rw [firstDigits, List.take_succ_cons]
    exact congrArg _ (firstDigits_take (Nat.le_of_succ_le_succ h))

theorem number_firstDigits : ∀ {k : Nat} {l : List Nat}, l.length ≤ k →
    digitNumber (firstDigits k l) = digitNumber l * 10 ^ (k - l.length)
  | 0, [], _ => rfl
  | k + 1, [], _ => by
    rw [firstDigits, digitNumber_cons, List.headD_nil, zero_mul, zero_add, List.tail_nil,
      number_firstDigits (l := []) (Nat.zero_le k), digitNumber_nil, zero_mul, zero_mul]
  | k + 1, d :: l, h => by
    have hk : l.length ≤ k := Nat.le_of_succ_le_succ h
    rw [firstDigits, digitNumber_cons, headD_cons, tail_cons, firstDigits_length, number_firstDigits hk,
      digitNumber_cons, length_cons, Nat.add_sub_add_right, add_mul, mul_assoc, ← pow_add, Nat.add_sub_cancel' hk]

/-- **The loop keeps the digits' number**, where that is within the limit. -/
theorem accumulate_eq {limit : Nat} (hlimit : 9 ≤ limit) :
    ∀ (keep : Nat) {l : List Nat} (mag : Nat), (∀ d ∈ l, d < 10) → mag ≤ limit → accumulate limit keep l mag =
      if mag * 10 ^ keep + digitNumber (firstDigits keep l) ≤ limit then
        some (mag * 10 ^ keep + digitNumber (firstDigits keep l)) else none
  | 0, l, mag, _, hmag => by
    have hmag' : mag * 10 ^ 0 + digitNumber (firstDigits 0 l) = mag := by
      rw [pow_zero, mul_one]
      rfl
    rw [accumulate, hmag', if_pos hmag]
  | keep + 1, l, mag, hl, hmag => by
    have hd : l.headD 0 < 10 := by
      cases l with
      | nil => exact (by decide : 0 < 10)
      | cons d l => exact hl d (mem_cons_self ..)
    have hfull : mag * 10 ^ (keep + 1) + digitNumber (firstDigits (keep + 1) l) =
        (mag * 10 + l.headD 0) * 10 ^ keep + digitNumber (firstDigits keep l.tail) := by
      rw [firstDigits, digitNumber_cons, firstDigits_length]
      ring
    rw [accumulate, hfull]
    by_cases hover : (limit - l.headD 0) / 10 < mag
    · have hlt : limit < mag * 10 + l.headD 0 := by omega
      have hmono : mag * 10 + l.headD 0 ≤ (mag * 10 + l.headD 0) * 10 ^ keep :=
        Nat.le_mul_of_pos_right _ (by positivity)
      rw [if_pos hover, if_neg (by omega)]
    · rw [if_neg hover]
      exact accumulate_eq hlimit keep _ (fun d hd => hl d (List.mem_of_mem_tail hd)) (by omega)

/-! ## What is below -/

theorem any_ne_zero {l : List Nat} : l.any (· ≠ 0) = true ↔ digitNumber l ≠ 0 := by
  rw [Ne, digitNumber_eq_zero, List.any_eq_true]
  simp

/-- **The next digit and whether anything follows it decide the rounding.** -/
theorem roundHalf_iff {d : Nat} {l : List Nat} (hd : d < 10) (hl : ∀ e ∈ l, e < 10) (q : Nat) :
    moneyRoundHalfEven (q % 2) d (l.any (· ≠ 0)) = true ↔ roundUp q (digitNumber (d :: l)) (10 ^ (l.length + 1)) := by
  have hlt := digitNumber_lt hl
  have hpow : 10 ^ (l.length + 1) = 10 * 10 ^ l.length := by ring
  have hup : roundUp q (digitNumber (d :: l)) (10 ^ (l.length + 1)) ↔ 5 < d ∨ d = 5 ∧
      (digitNumber l ≠ 0 ∨ q % 2 = 1) := by
    unfold roundUp
    rw [digitNumber_cons, hpow]
    generalize 10 ^ l.length = p at *
    have hp : 0 < p := Nat.zero_lt_of_lt hlt
    rcases lt_trichotomy d 5 with h | rfl | h
    · have hle : (d + 1) * p ≤ 5 * p := Nat.mul_le_mul_right p h
      rw [add_mul] at hle
      constructor
      · rintro (h | h) <;> omega
      · rintro (h | h) <;> omega
    · constructor
      · rintro (h | h)
        · exact .inr ⟨rfl, .inl (by omega)⟩
        · exact .inr ⟨rfl, .inr h.2⟩
      · rintro (h | ⟨-, h | h⟩)
        · omega
        · exact .inl (by omega)
        · by_cases hzero : digitNumber l = 0
          · exact .inr ⟨by omega, h⟩
          · exact .inl (by omega)
    · have hle : 6 * p ≤ d * p := Nat.mul_le_mul_right p h
      constructor
      · exact fun _ => .inl h
      · exact fun _ => .inl (by omega)
  rw [hup, ← any_ne_zero]
  unfold moneyRoundHalfEven
  generalize l.any (· ≠ 0) = sticky
  rcases lt_trichotomy d 5 with h | rfl | h
  · rw [if_pos h]
    exact iff_of_false (by decide) (by omega)
  · rw [if_neg (by decide)]
    cases sticky
    · rw [if_neg (by decide), decide_eq_true_eq]
      exact ⟨fun h => .inr ⟨rfl, .inr (by omega)⟩, fun h => by simpa using h⟩
    · rw [if_pos (.inr rfl)]
      exact iff_of_true rfl (.inr ⟨rfl, .inl rfl⟩)
  · rw [if_neg (by omega), if_pos (.inl h)]
    exact iff_of_true rfl (.inl h)

/-! ## The units -/

structure Significant (digits more : List Nat) : Prop where
  lt : ∀ d ∈ digits ++ more, d < 10
  leads : digits.headD 1 ≠ 0
  full : more ≠ [] → digits.length = 40

def scaled (sig : List Nat) (keep : Int) : ℚ := digitNumber sig * (10 : ℚ) ^ (keep - sig.length)

theorem scaled_div {sig : List Nat} {keep : Int} {k : Nat} (h : keep + k = sig.length) :
    scaled sig keep = (digitNumber sig : ℚ) / (10 ^ k : Nat) := by
  rw [scaled, show keep - sig.length = -(k : Int) by omega, zpow_neg, zpow_natCast, div_eq_mul_inv]
  push_cast
  rfl

theorem scaled_mul {sig : List Nat} {keep : Int} {k : Nat} (h : keep = sig.length + k) :
    scaled sig keep = ((digitNumber sig * 10 ^ k : Nat) : ℚ) := by
  rw [scaled, show keep - sig.length = (k : Int) by omega, zpow_natCast]
  push_cast
  rfl

/-- A half with zeros after it, none of whose digits is kept: the zeros are taken for more than a half. -/
def HalfWithZeros (excess : Excess) (sig : List Nat) (keep : Int) : Prop :=
  excess = .round ∧ keep = 0 ∧ 2 ≤ sig.length ∧ sig.headD 0 = 5 ∧ ∀ d ∈ sig.tail, d = 0

section
variable {digits more : List Nat} {negative : Bool} {excess : Excess} {keep : Int}

theorem Significant.number_pos (h : Significant digits more) (hne : digits ≠ []) :
    0 < digitNumber (digits ++ more) := by
  rcases Nat.eq_zero_or_pos (digitNumber (digits ++ more)) with hzero | hpos
  · rw [digitNumber_eq_zero] at hzero
    cases digits with
    | nil => exact absurd rfl hne
    | cons d l => exact absurd (hzero d (mem_cons_self ..)) h.leads
  · exact hpos

theorem Significant.nil (h : Significant [] more) : more = [] := by
  by_contra hne
  exact absurd (h.full hne) (by decide)

theorem limitOf_bounds (negative : Bool) : 9 ≤ limitOf negative ∧ limitOf negative < 10 ^ 39 := by
  cases negative <;> decide

theorem scaled_lt_one (hs : Significant digits more) (hkeep : keep ≤ 0) : scaled (digits ++ more) keep < 1 := by
  obtain ⟨k, hk⟩ := Int.le.dest (show keep ≤ (digits ++ more).length by omega)
  have hlt : digitNumber (digits ++ more) < 10 ^ k :=
    lt_of_lt_of_le (digitNumber_lt hs.lt) (Nat.pow_le_pow_right (by decide) (by omega))
  rw [scaled_div hk, div_lt_one (by exact_mod_cast Nat.zero_lt_of_lt hlt)]
  exact_mod_cast hlt

theorem units_low (hs : Significant digits more) (hkeep : keep ≤ 0)
    (hhalf : ¬ HalfWithZeros excess (digits ++ more) keep) (z : Int) :
    moneyUnits negative digits (more.any (· ≠ 0)) keep excess = .ok z ↔
      Accepts excess (sign negative * scaled (digits ++ more) keep) z := by
  obtain ⟨k, hk⟩ := Int.le.dest (show keep ≤ (digits ++ more).length by omega)
  have hnum : digitNumber (digits ++ more) < 10 ^ k :=
    lt_of_lt_of_le (digitNumber_lt hs.lt) (Nat.pow_le_pow_right (by decide) (by omega))
  have hround : Rounds (scaled (digits ++ more) keep)
      (if roundUp 0 (digitNumber (digits ++ more)) (10 ^ k) then 1 else 0 : ℕ) := by
    rw [scaled_div hk]
    have h := @rounds_div ℚ _ _ _ 0 (digitNumber (digits ++ more)) (10 ^ k) hnum
    rwa [zero_mul, zero_add, zero_add] at h
  unfold moneyUnits
  rw [if_pos hkeep]
  by_cases hreject : excess = .reject ∧ (digits ≠ [] ∨ more.any (· ≠ 0) = true)
  · rw [if_pos hreject]
    refine accepts_error hround (.inr ⟨hreject.1, fun heq => ?_⟩) _ z
    have hne : digits ≠ [] := by
      rcases hreject.2 with h | h
      · exact h
      · rintro rfl
        rw [hs.nil] at h
        cases h
    have hpos : 0 < scaled (digits ++ more) keep := by
      rw [scaled_div hk]
      have hsig := hs.number_pos hne
      have hten : 0 < 10 ^ k := by positivity
      exact div_pos (by exact_mod_cast hsig) (by exact_mod_cast hten)
    have hlt := scaled_lt_one hs hkeep
    rw [heq] at hpos hlt
    have h0 : 0 < (if roundUp 0 (digitNumber (digits ++ more)) (10 ^ k) then 1 else 0 : ℕ) := by exact_mod_cast hpos
    have h1 : (if roundUp 0 (digitNumber (digits ++ more)) (10 ^ k) then 1 else 0 : ℕ) < 1 := by exact_mod_cast hlt
    omega
  rw [if_neg hreject]
  dsimp only
  have hexact : excess = .reject → scaled (digits ++ more) keep = 0 := by
    intro h
    have hnil : digits = [] := by
      by_contra hne
      exact hreject ⟨h, .inl hne⟩
    subst hnil
    rw [hs.nil, scaled, show digitNumber ([] ++ []) = 0 from rfl, Nat.cast_zero, zero_mul]
  have hsame : moneyRoundHalfEven 0 (if keep = 0 then digits.headD 0 else 0)
      (more.any (· ≠ 0) || decide ((if keep = 0 then 1 else 0) < digits.length)) = true ↔
        roundUp 0 (digitNumber (digits ++ more)) (10 ^ k) := by
    rcases digits with _ | ⟨d, rest⟩
    · have hnot : ¬ roundUp 0 (digitNumber ([] ++ more)) (10 ^ k) := by
        rw [hs.nil]
        have hten : 0 < 10 ^ k := by positivity
        rintro (h | h)
        · exact absurd h (Nat.not_lt_zero _)
        · exact absurd h.1 hten.ne'
      refine iff_of_false (fun h => ?_) hnot
      rw [show (if keep = 0 then ([] : List Nat).headD 0 else 0) = 0 by split_ifs <;> rfl] at h
      cases h
    have hrule : excess = .round := by
      cases excess with
      | reject => exact absurd ⟨rfl, .inl (List.cons_ne_nil d rest)⟩ hreject
      | round => rfl
    have hd : d < 10 := hs.lt d (mem_cons_self ..)
    have hrest : ∀ e ∈ rest ++ more, e < 10 := fun e he => hs.lt e (List.mem_cons_of_mem _ he)
    by_cases hzero : keep = 0
    · subst hzero
      obtain rfl : k = (rest ++ more).length + 1 := by
        rw [cons_append, length_cons] at hk
        omega
      rw [if_pos rfl, if_pos rfl, headD_cons, cons_append, ← roundHalf_iff hd hrest 0]
      refine Bool.eq_iff_iff.1 ?_
      by_cases h5 : d = 5
      · have hsticky : (more.any (· ≠ 0) || decide (1 < (d :: rest).length)) = (rest ++ more).any (· ≠ 0) := by
          rw [any_append, Bool.or_comm]
          rcases hmore : more.any (· ≠ 0)
          · rw [Bool.or_false, Bool.or_false]
            rcases hany : rest.any (· ≠ 0)
            · rw [decide_eq_false_iff_not]
              intro hlen
              refine hhalf ⟨hrule, rfl, ?_, h5, fun e he => ?_⟩
              · rw [cons_append, length_cons, List.length_append]
                rw [length_cons] at hlen
                omega
              · rw [cons_append, tail_cons] at he
                rcases List.mem_append.1 he with he | he
                · simpa using List.any_eq_false.1 hany e he
                · simpa using List.any_eq_false.1 hmore e he
            · rw [decide_eq_true_eq, length_cons]
              have hne : rest ≠ [] := by
                rintro rfl
                cases hany
              have := List.length_pos_iff.2 hne
              omega
          · rw [Bool.or_true, Bool.or_true]
        rw [hsticky]
      · unfold moneyRoundHalfEven
        rcases lt_or_gt_of_ne h5 with h | h
        · rw [if_pos h, if_pos h]
        · have hnot : ¬ d < 5 := not_lt.2 h.le
          simp only [hnot, h, if_false, true_or, if_true]
    · rw [if_neg hzero]
      refine iff_of_false (fun h => by cases h) (fun hup => ?_)
      have hsmall : digitNumber (d :: rest ++ more) * 10 < 10 ^ k := by
        have hpow : 10 ^ (d :: rest ++ more).length * 10 ≤ 10 ^ k := by
          rw [← pow_succ]
          exact Nat.pow_le_pow_right (by decide) (by omega)
        have := digitNumber_lt hs.lt
        omega
      rcases hup with h | h
      · omega
      · omega
  have hle := (limitOf_bounds negative).1
  rw [show (if moneyRoundHalfEven 0 (if keep = 0 then digits.headD 0 else 0)
      (more.any (· ≠ 0) || decide ((if keep = 0 then 1 else 0) < digits.length)) then 1 else 0) =
        (if roundUp 0 (digitNumber (digits ++ more)) (10 ^ k) then 1 else 0 : ℕ) from if_congr hsame rfl rfl]
  refine accepts_ok hround (by split_ifs <;> omega) (fun h => ?_) z
  have hx := hexact h
  rw [hx] at hround ⊢
  have := hround.unique (Rounds.intCast 0 |> fun h => by simpa using h)
  exact_mod_cast this.symm

theorem units_kept (hs : Significant digits more) (hkeep : 0 < keep) :
    moneyUnits negative digits (more.any (· ≠ 0)) keep excess =
    if digitNumber (firstDigits keep.toNat digits) ≤ limitOf negative then
      if keep < digits.length ∧ (more.any (· ≠ 0) || (digits.drop keep.toNat).any (· ≠ 0)) then
        if excess = .reject then .error MONEY_ERR_EXCESS_DIGITS
        else if moneyRoundHalfEven (digitNumber (firstDigits keep.toNat digits) % 2) ((digits.drop keep.toNat).headD 0)
            (more.any (· ≠ 0) || (digits.drop keep.toNat).tail.any (· ≠ 0)) then
          if limitOf negative ≤ digitNumber (firstDigits keep.toNat digits) then .error MONEY_ERR_RANGE
          else .ok (signed negative (digitNumber (firstDigits keep.toNat digits) + 1))
        else .ok (signed negative (digitNumber (firstDigits keep.toNat digits)))
      else if more.any (· ≠ 0) then .error MONEY_ERR_RANGE
      else .ok (signed negative (digitNumber (firstDigits keep.toNat digits)))
    else .error MONEY_ERR_RANGE := by
  unfold moneyUnits
  rw [if_neg (not_le.2 hkeep), accumulate_eq (limitOf_bounds negative).1 keep.toNat 0
    (fun d hd => hs.lt d (List.mem_append_left _ hd)) (Nat.zero_le _), zero_mul, zero_add]
  by_cases hle : digitNumber (firstDigits keep.toNat digits) ≤ limitOf negative
  · rw [if_pos hle, if_pos hle]
  · rw [if_neg hle, if_neg hle]

theorem units_whole (hs : Significant digits []) (hkeep : 0 < keep) (hall : (digits.length : Int) ≤ keep) (z : Int) :
    moneyUnits negative digits false keep excess = .ok z ↔ Accepts excess (sign negative * scaled digits keep) z := by
  obtain ⟨k, hk⟩ := Int.le.dest hall
  have hnat : keep.toNat = digits.length + k := by omega
  have hval : scaled digits keep = (digitNumber (firstDigits keep.toNat digits) : ℕ) := by
    rw [scaled_mul hk.symm, number_firstDigits (by omega), hnat, Nat.add_sub_cancel_left]
  have hround : Rounds (scaled digits keep) (digitNumber (firstDigits keep.toNat digits) : ℕ) := by
    rw [hval]
    exact_mod_cast Rounds.intCast (K := ℚ) (digitNumber (firstDigits keep.toNat digits))
  have hcode := @units_kept digits [] negative excess keep hs hkeep
  rw [List.any_nil] at hcode
  rw [hcode, if_neg (show ¬ (keep < digits.length ∧ _) from fun h => absurd h.1 (not_lt.2 hall)),
    if_neg Bool.false_ne_true]
  by_cases hle : digitNumber (firstDigits keep.toNat digits) ≤ limitOf negative
  · rw [if_pos hle]
    exact accepts_ok hround hle (fun _ => hval) z
  · rw [if_neg hle]
    exact accepts_error hround (.inl (not_le.1 hle)) _ z

theorem units_big (hs : Significant digits more) (hfull : digits.length = 40) (hkeep : 40 ≤ keep) (z : Int) :
    moneyUnits negative digits (more.any (· ≠ 0)) keep excess = .ok z ↔
      Accepts excess (sign negative * scaled (digits ++ more) keep) z := by
  have hlimit := limitOf_bounds negative
  have hdigits : 10 ^ 39 ≤ digitNumber digits := by
    rcases digits with _ | ⟨d, rest⟩
    · exact absurd hfull (by decide)
    · rw [length_cons] at hfull
      have hd : 1 ≤ d := Nat.one_le_iff_ne_zero.2 hs.leads
      rw [digitNumber_cons, show rest.length = 39 by omega]
      exact le_trans (Nat.le_mul_of_pos_left _ hd) (Nat.le_add_right _ _)
  have hcode : ¬ digitNumber (firstDigits keep.toNat digits) ≤ limitOf negative := by
    rw [number_firstDigits (by omega)]
    have hle : digitNumber digits ≤ digitNumber digits * 10 ^ (keep.toNat - digits.length) :=
      Nat.le_mul_of_pos_right _ (by positivity)
    exact not_le.2 (lt_of_lt_of_le hlimit.2 (le_trans hdigits hle))
  rw [units_kept hs (by omega), if_neg hcode]
  have hhead : 10 ^ 39 * 10 ^ more.length ≤ digitNumber (digits ++ more) := by
    rw [digitNumber_append]
    exact le_trans (Nat.mul_le_mul_right _ hdigits) (Nat.le_add_right _ _)
  rcases le_total keep (digits ++ more).length with hle | hge
  · obtain ⟨k, hk⟩ := Int.le.dest hle
    have hmore : 10 ^ k ≤ 10 ^ more.length := Nat.pow_le_pow_right (by decide) (by
      rw [List.length_append] at hk
      omega)
    have hdiv := Nat.div_add_mod (digitNumber (digits ++ more)) (10 ^ k)
    have hround : Rounds (scaled (digits ++ more) keep) (if roundUp (digitNumber (digits ++ more) / 10 ^ k)
        (digitNumber (digits ++ more) % 10 ^ k) (10 ^ k) then digitNumber (digits ++ more) / 10 ^ k + 1
        else digitNumber (digits ++ more) / 10 ^ k : ℕ) := by
      rw [scaled_div hk]
      have h := @rounds_div ℚ _ _ _ (digitNumber (digits ++ more) / 10 ^ k) (digitNumber (digits ++ more) % 10 ^ k)
        (10 ^ k)
        (Nat.mod_lt _ (by positivity))
      rwa [mul_comm, hdiv] at h
    refine accepts_error hround (.inl ?_) _ z
    have hq : 10 ^ 39 ≤ digitNumber (digits ++ more) / 10 ^ k := by
      rw [Nat.le_div_iff_mul_le (by positivity)]
      exact le_trans (Nat.mul_le_mul_left _ hmore) hhead
    have hlt := lt_of_lt_of_le hlimit.2 hq
    clear hlimit hdigits hhead hq
    split_ifs
    · exact Nat.lt_succ_of_lt hlt
    · exact hlt
  · obtain ⟨k, hk⟩ := Int.le.dest hge
    have hval := scaled_mul hk.symm
    have hround : Rounds (scaled (digits ++ more) keep) (digitNumber (digits ++ more) * 10 ^ k : ℕ) := by
      rw [hval]
      exact_mod_cast Rounds.intCast (K := ℚ) (digitNumber (digits ++ more) * 10 ^ k : ℕ)
    refine accepts_error hround (.inl ?_) _ z
    have h1 : 10 ^ 39 ≤ 10 ^ 39 * 10 ^ more.length := Nat.le_mul_of_pos_right _ (by positivity)
    have h2 : digitNumber (digits ++ more) ≤ digitNumber (digits ++ more) * 10 ^ k :=
      Nat.le_mul_of_pos_right _ (by positivity)
    exact lt_of_lt_of_le hlimit.2 (le_trans h1 (le_trans hhead h2))

theorem units_part (hs : Significant digits more) (hkeep : 0 < keep) (hpart : keep < digits.length) (z : Int) :
    moneyUnits negative digits (more.any (· ≠ 0)) keep excess = .ok z ↔
      Accepts excess (sign negative * scaled (digits ++ more) keep) z := by
  obtain ⟨n, rfl⟩ := Int.eq_ofNat_of_zero_le hkeep.le
  have hn : n < digits.length := by exact_mod_cast hpart
  obtain ⟨d, rest, hbelow⟩ : ∃ d rest, digits.drop n = d :: rest :=
    ⟨_, _, List.drop_eq_getElem_cons hn⟩
  have hsplit : digits ++ more = digits.take n ++ (d :: (rest ++ more)) := by
    rw [← cons_append, ← hbelow, ← List.append_assoc, List.take_append_drop]
  have hlen : (digits.take n).length = n := List.length_take_of_le hn.le
  have hmem : ∀ e ∈ d :: (rest ++ more), e < 10 := fun e he => hs.lt e (by
    rw [hsplit]
    exact List.mem_append_right _ he)
  have hd : d < 10 := hmem d (mem_cons_self ..)
  have hrest : ∀ e ∈ rest ++ more, e < 10 := fun e he => hmem e (List.mem_cons_of_mem _ he)
  have hr : digitNumber (d :: (rest ++ more)) < 10 ^ ((rest ++ more).length + 1) := digitNumber_lt hmem
  have hnumber : digitNumber (digits ++ more) =
      digitNumber (digits.take n) * 10 ^ ((rest ++ more).length + 1) + digitNumber (d :: (rest ++ more)) := by
    rw [hsplit, digitNumber_append, length_cons]
  have hk : (n : Int) + ((rest ++ more).length + 1 : Nat) = (digits ++ more).length := by
    rw [hsplit, @List.length_append _ (digits.take n), hlen, length_cons]
    push_cast
    ring
  have hval := scaled_div hk
  have hround : Rounds (scaled (digits ++ more) n) (if roundUp (digitNumber (digits.take n))
      (digitNumber (d :: (rest ++ more)))
      (10 ^ ((rest ++ more).length + 1)) then digitNumber (digits.take n) + 1
      else digitNumber (digits.take n) : ℕ) := by
    rw [hval, hnumber]
    exact rounds_div hr
  have hexact : scaled (digits ++ more) n = (digitNumber (digits.take n) : ℕ) ↔ digitNumber (d :: (rest ++ more)) =
      0 := by
    have hpos : (0 : ℚ) < (10 ^ ((rest ++ more).length + 1) : ℕ) := by
      push_cast
      positivity
    rw [hval, hnumber, div_eq_iff hpos.ne', ← Nat.cast_mul, Nat.cast_inj]
    omega
  have hany : (more.any (· ≠ 0) || (d :: rest).any (· ≠ 0)) = true ↔ digitNumber (d :: (rest ++ more)) ≠ 0 := by
    rw [← any_ne_zero, ← cons_append, any_append, Bool.or_comm]
  have hsticky : (more.any (· ≠ 0) || rest.any (· ≠ 0)) = (rest ++ more).any (· ≠ 0) := by
    rw [any_append, Bool.or_comm]
  rw [units_kept hs hkeep, Int.toNat_natCast, firstDigits_take hn.le, hbelow, headD_cons, tail_cons, hsticky]
  by_cases hle : digitNumber (digits.take n) ≤ limitOf negative
  swap
  · rw [if_neg hle]
    exact accepts_error hround (.inl (by split_ifs <;> omega)) _ z
  rw [if_pos hle]
  by_cases hzero : digitNumber (d :: (rest ++ more)) = 0
  · have hup : ¬ roundUp (digitNumber (digits.take n)) (digitNumber (d :: (rest ++ more)))
        (10 ^ ((rest ++ more).length + 1)) := by
      have hpos : 0 < 10 ^ ((rest ++ more).length + 1) := by positivity
      rintro (h | h) <;> omega
    have hmore : ¬ more.any (· ≠ 0) = true := fun h => hany.1 (by rw [h, Bool.true_or]) hzero
    rw [if_neg (show ¬ ((n : Int) < digits.length ∧ _) from fun h => hany.1 h.2 hzero), if_neg hmore]
    rw [if_neg hup] at hround
    exact accepts_ok hround hle (fun _ => hexact.2 hzero) z
  rw [if_pos (show (n : Int) < digits.length ∧ _ from ⟨hpart, hany.2 hzero⟩)]
  by_cases hreject : excess = .reject
  · rw [if_pos hreject]
    refine accepts_error hround (.inr ⟨hreject, fun heq => ?_⟩) _ z
    have hne : scaled (digits ++ more) n ≠ (digitNumber (digits.take n) : ℕ) := fun h => hzero (hexact.1 h)
    split_ifs at heq with hup
    · have hlt : scaled (digits ++ more) n < ((digitNumber (digits.take n) + 1 : ℕ) : ℚ) := by
        have hpos : (0 : ℚ) < (10 ^ ((rest ++ more).length + 1) : ℕ) := by
          push_cast
          positivity
        rw [hval, hnumber, div_lt_iff₀ hpos, ← Nat.cast_mul, Nat.cast_lt, add_mul, one_mul]
        omega
      exact absurd heq hlt.ne
    · exact hne heq
  rw [if_neg hreject]
  have hiff := roundHalf_iff hd hrest (digitNumber (digits.take n))
  by_cases hup : roundUp (digitNumber (digits.take n)) (digitNumber (d :: (rest ++ more)))
    (10 ^ ((rest ++ more).length + 1))
  · rw [if_pos hup] at hround
    rw [if_pos (hiff.2 hup)]
    by_cases hover : limitOf negative ≤ digitNumber (digits.take n)
    · rw [if_pos hover]
      exact accepts_error hround (.inl (Nat.lt_succ_of_le hover)) _ z
    · rw [if_neg hover]
      exact accepts_ok hround (not_le.1 hover) (fun h => absurd h hreject) z
  · rw [if_neg hup] at hround
    rw [if_neg (fun h => hup (hiff.1 h))]
    exact accepts_ok hround hle (fun h => absurd h hreject) z

/-- **The units are those of the number**, but for a half with zeros after it. -/
theorem units_iff (hs : Significant digits more) (hhalf : ¬ HalfWithZeros excess (digits ++ more) keep) (z : Int) :
    moneyUnits negative digits (more.any (· ≠ 0)) keep excess = .ok z ↔
      Accepts excess (sign negative * scaled (digits ++ more) keep) z := by
  by_cases hlow : keep ≤ 0
  · exact units_low hs hlow hhalf z
  by_cases hpart : keep < digits.length
  · exact units_part hs (not_le.1 hlow) hpart z
  by_cases hmore : more = []
  · subst hmore
    rw [List.append_nil, List.any_nil]
    exact units_whole hs (not_le.1 hlow) (not_lt.1 hpart) z
  · have hfull := hs.full hmore
    exact units_big hs hfull (by omega) z

theorem units_half (hs : Significant digits more) (hhalf : HalfWithZeros excess (digits ++ more) keep) :
    moneyUnits negative digits (more.any (· ≠ 0)) keep excess = .ok (signed negative 1) := by
  obtain ⟨rfl, rfl, hlen, hhead, -⟩ := hhalf
  rcases digits with _ | ⟨d, rest⟩
  · rw [hs.nil] at hlen
    exact absurd hlen (by decide)
  have hd : d = 5 := hhead
  subst hd
  unfold moneyUnits
  rw [if_pos le_rfl, if_neg (fun h => by cases h.1), if_pos rfl, if_pos rfl, headD_cons]
  have hsticky : (more.any (· ≠ 0) || decide (1 < (5 :: rest).length)) = true := by
    rcases rest with _ | ⟨e, rest⟩
    · have hne : more ≠ [] := by
        rintro rfl
        exact absurd hlen (by decide)
      exact absurd (hs.full hne) (by decide)
    · rw [Bool.or_eq_true, decide_eq_true_eq, length_cons, length_cons]
      exact .inr (by omega)
  rw [hsticky]
  rfl

end

end Money
end Gbasic
