import Gbasic.MoneyRead
import Mathlib.Data.List.DropRight
/-!
# MoneyWrite — money is written to be read back

At its own scale a value is written with every digit it holds, less zeros (`render_exact`); reading that gives back its
units where the scale's power of ten, in sixty-four bits, is what it is, or is not reached (`roundTrips_iff`).
-/
namespace Gbasic
namespace Money

open Dates (cint cint_eq_some IsInt)
open Eval (CString MoneyValue)
open List (mem_append length_append append_assoc nil_append append_nil)

/-! ## Decimal digits -/

def decDigits (n : Nat) : List Nat := if n = 0 then [0] else (Nat.digits 10 n).reverse

def padDigits (w n : Nat) : List Nat := List.replicate (w - (decDigits n).length) 0 ++ decDigits n

theorem decimal_eq (n : Nat) : decimal n = digitBytes (decDigits n) := by
  unfold decimal digitBytes decDigits
  split_ifs
  · rfl
  · rfl

theorem decDigits_lt (n : Nat) : ∀ d ∈ decDigits n, d < 10 := by
  unfold decDigits
  split_ifs
  · intro d hd
    rw [List.mem_singleton.1 hd]
    decide
  · intro d hd
    exact Nat.digits_lt_base (by decide) (List.mem_reverse.1 hd)

theorem number_decDigits (n : Nat) : digitNumber (decDigits n) = n := by
  unfold decDigits
  split_ifs with h
  · rw [h]
    rfl
  · unfold digitNumber
    rw [List.reverse_reverse, Nat.ofDigits_digits]

theorem decDigits_length {n k : Nat} (hk : 1 ≤ k) (h : n < 10 ^ k) :
    1 ≤ (decDigits n).length ∧ (decDigits n).length ≤ k := by
  unfold decDigits
  split_ifs with hzero
  · exact ⟨le_rfl, hk⟩
  · rw [List.length_reverse]
    refine ⟨List.length_pos_iff.2 (Nat.digits_ne_nil_iff_ne_zero.2 hzero), ?_⟩
    exact (Nat.digits_length_le_iff (by decide) n).2 h

theorem decimalPadded_eq (w n : Nat) : decimalPadded w n = digitBytes (padDigits w n) := by
  unfold decimalPadded padDigits digitBytes
  rw [List.map_append, List.map_replicate, decimal_eq, digitBytes, List.length_map]

theorem padDigits_lt (w n : Nat) : ∀ d ∈ padDigits w n, d < 10 := by
  intro d hd
  rcases mem_append.1 hd with h | h
  · rw [List.eq_of_mem_replicate h]
    decide
  · exact decDigits_lt n d h

theorem number_padDigits (w n : Nat) : digitNumber (padDigits w n) = n := by
  rw [padDigits, digitNumber_append, digitNumber_replicate, zero_mul, zero_add, number_decDigits]

theorem padDigits_length {w n : Nat} (hw : 1 ≤ w) (h : n < 10 ^ w) : (padDigits w n).length = w := by
  have := decDigits_length hw h
  rw [padDigits, length_append, List.length_replicate]
  omega

theorem number_take {w n t : Nat} (hw : 1 ≤ w) (h : n < 10 ^ w) :
    digitNumber ((padDigits w n).take t) = n / 10 ^ (w - t) := by
  have hsplit := digitNumber_append ((padDigits w n).take t) ((padDigits w n).drop t)
  rw [List.take_append_drop, number_padDigits, List.length_drop, padDigits_length hw h] at hsplit
  have hlt : digitNumber ((padDigits w n).drop t) < 10 ^ (w - t) := by
    have := @digitNumber_lt ((padDigits w n).drop t) (fun d hd => padDigits_lt w n d (List.mem_of_mem_drop hd))
    rwa [List.length_drop, padDigits_length hw h] at this
  conv_rhs => rw [hsplit, Nat.add_comm, Nat.add_mul_div_right _ _ (by positivity), Nat.div_eq_of_lt hlt, zero_add]

/-! ## Zeros at the end -/

theorem trim_digits (e : Nat) {l : List Nat} (hl : ∀ d ∈ l, d < 10) : ∃ l₁ l₂, l = l₁ ++ l₂ ∧ digitNumber l₂ = 0 ∧
    (digitBytes l).take e ++ (((digitBytes l).drop e).reverse.dropWhile (· = byte 48)).reverse = digitBytes l₁ := by
  have hsplit : (digitBytes l).take e ++ (((digitBytes l).drop e).reverse.dropWhile (· = byte 48)).reverse ++
      (((digitBytes l).drop e).reverse.takeWhile (· = byte 48)).reverse = digitBytes l := by
    rw [append_assoc, ← List.reverse_append, List.takeWhile_append_dropWhile, List.reverse_reverse,
      List.take_append_drop]
  obtain ⟨l₁, l₂, hll, h₁, h₂⟩ := List.map_eq_append_iff.1 hsplit.symm
  refine ⟨l₁, l₂, hll, digitNumber_eq_zero.2 (fun d hd => ?_), h₁.symm⟩
  have hmem : byte (48 + d) ∈ (((digitBytes l).drop e).reverse.takeWhile (· = byte 48)).reverse := by
    rw [← h₂]
    exact List.mem_map_of_mem hd
  have hbyte : byte (48 + d) = byte 48 := by simpa using List.mem_takeWhile_imp (List.mem_reverse.1 hmem)
  have hd10 : d < 10 := hl d (by rw [hll]; exact List.mem_append_right _ hd)
  interval_cases d <;> first | rfl | exact absurd hbyte (by decide)

/-! ## The text -/

theorem digitBytes_noPoint {l : List Nat} (hl : ∀ d ∈ l, d < 10) : byte '.'.toNat ∉ digitBytes l := by
  intro h
  obtain ⟨d, hd, heq⟩ := List.mem_map.1 h
  have := (digitByte (hl d hd)).1
  rw [heq] at this
  exact absurd this (by decide)

section
variable (m : MoneyValue)

def signBytes : List Byte := if m.units.toInt < 0 then [byte '-'.toNat] else []

def wholeDigits : List Nat := decDigits (m.units.toInt.natAbs / ull (10 ^ moneyScaleOf m))

def fracDigits : List Nat :=
  (padDigits (moneyScaleOf m) (m.units.toInt.natAbs % ull (10 ^ moneyScaleOf m))).take
    (62 - (signBytes m ++ digitBytes (wholeDigits m)).length)

theorem units_le : m.units.toInt.natAbs ≤ 9223372036854775808 := by
  have h1 := BitVec.le_toInt m.units
  have h2 := BitVec.toInt_lt (x := m.units)
  norm_num at h1 h2
  omega

theorem head_length : 1 ≤ (wholeDigits m).length ∧ (wholeDigits m).length ≤ 19 ∧
    (signBytes m ++ digitBytes (wholeDigits m)).length =
      (if m.units.toInt < 0 then 1 else 0) + (wholeDigits m).length := by
  have hmag := units_le m
  have hle := Nat.div_le_self m.units.toInt.natAbs (ull (10 ^ moneyScaleOf m))
  have hlen := @decDigits_length (m.units.toInt.natAbs / ull (10 ^ moneyScaleOf m)) 19 (by decide) (by
    rw [show 10 ^ 19 = 10000000000000000000 by norm_num]
    omega)
  refine ⟨hlen.1, hlen.2, ?_⟩
  unfold signBytes digitBytes
  rw [length_append, List.length_map]
  split_ifs <;> rfl

theorem moneyRender_eq (hdiv : ull (10 ^ moneyScaleOf m) ≠ 0) : moneyRender m (moneyScaleOf m) 64 =
    some (signBytes m ++ digitBytes (wholeDigits m) ++ byte '.'.toNat :: digitBytes (fracDigits m)) := by
  have hmag := units_le m
  obtain ⟨h1, h19, hlen⟩ := head_length m
  have hplaces : moneyPlaces m.units.toInt.natAbs (moneyScaleOf m) (moneyScaleOf m) = some m.units.toInt.natAbs := by
    rw [moneyPlaces, if_neg (lt_irrefl _), Nat.sub_self, pow_zero, mul_one, ull, Nat.mod_eq_of_lt (by omega)]
  have hscale : moneyScaleOf m ≠ 0 := by
    unfold moneyScaleOf MONEY_GUARD_DIGITS
    omega
  have hsign : (if m.units.toInt < 0 ∧ m.units.toInt.natAbs ≠ 0 then [byte '-'.toNat] else []) = signBytes m := by
    unfold signBytes
    exact if_congr ⟨fun h => h.1, fun h => ⟨h, by omega⟩⟩ rfl rfl
  have hhead : (signBytes m ++ digitBytes (wholeDigits m)).length ≤ 20 := by
    rw [hlen]
    split_ifs <;> omega
  unfold moneyRender
  rw [hplaces]
  dsimp only
  rw [if_neg hdiv, if_neg hscale, hsign, decimal_eq, decimalPadded_eq]
  show some ((signBytes m ++ digitBytes (wholeDigits m) ++ _).take 63) = _
  rw [List.take_append, List.take_of_length_le (by omega)]
  have hk : 63 - (signBytes m ++ digitBytes (wholeDigits m)).length =
      62 - (signBytes m ++ digitBytes (wholeDigits m)).length + 1 := by omega
  have htake : ∀ k l, (digitBytes l).take k = digitBytes (l.take k) := fun k l => List.map_take.symm
  rw [hk, List.take_succ_cons, htake]
  rfl

/-- **What is written**: the sign, the whole digits, and the digits after the point less zeros at their end. -/
theorem render_exact (hdiv : ull (10 ^ moneyScaleOf m) ≠ 0) :
    ∃ l₁ l₂ point, fracDigits m = l₁ ++ l₂ ∧ digitNumber l₂ = 0 ∧
    SpellsPoint l₁ point ∧ moneyRenderExact m 64 = some (signBytes m ++ (digitBytes (wholeDigits m) ++ point)) := by
  have hfrac : ∀ d ∈ fracDigits m, d < 10 := fun d hd => padDigits_lt _ _ d (List.mem_of_mem_take hd)
  obtain ⟨l₁, l₂, hl, hzero, htrim⟩ := trim_digits m.exponent.toNat hfrac
  have hl₁ : ∀ d ∈ l₁, d < 10 := fun d hd => hfrac d (by rw [hl]; exact List.mem_append_left _ hd)
  have hnot : byte '.'.toNat ∉ signBytes m ++ digitBytes (wholeDigits m) := by
    rw [mem_append]
    rintro (h | h)
    · unfold signBytes at h
      split_ifs at h
      · exact absurd (List.mem_singleton.1 h) (by decide)
      · cases h
    · exact digitBytes_noPoint (decDigits_lt _) h
  have hindex : (signBytes m ++ digitBytes (wholeDigits m) ++ byte '.'.toNat :: digitBytes (fracDigits m)).idxOf
      (byte '.'.toNat) = (signBytes m ++ digitBytes (wholeDigits m)).length := by
    rw [List.idxOf_append_of_notMem hnot, List.idxOf_cons_self, Nat.add_zero]
  have htrimmed : trimZeros ((signBytes m ++ digitBytes (wholeDigits m)).length + 1 + m.exponent.toNat)
      (signBytes m ++ digitBytes (wholeDigits m) ++ byte '.'.toNat :: digitBytes (fracDigits m)) =
        signBytes m ++ digitBytes (wholeDigits m) ++ byte '.'.toNat :: digitBytes l₁ := by
    unfold trimZeros
    rw [← htrim, Nat.add_assoc, List.take_length_add_append, List.drop_length_add_append, Nat.add_comm 1,
      List.take_succ_cons, List.drop_succ_cons, append_assoc, append_assoc, append_assoc, List.cons_append]
  refine ⟨l₁, l₂, if l₁ = [] then [] else byte '.'.toNat :: digitBytes l₁, hl, hzero, ?_, ?_⟩
  · split_ifs with h
    · rw [h]
      exact .none
    · exact .point l₁
  · unfold moneyRenderExact
    rw [moneyRender_eq m hdiv, Option.map_some, if_pos (by simp), hindex]
    dsimp only
    rw [htrimmed]
    by_cases h : l₁ = []
    · subst h
      rw [if_pos rfl]
      simp [digitBytes]
    · obtain ⟨d, l, rfl⟩ := List.exists_cons_of_ne_nil h
      rw [if_neg h, if_neg, append_assoc]
      intro hlast
      have hmem : byte '.'.toNat ∈ digitBytes (d :: l) := by
        rw [List.getLast?_append, show digitBytes (d :: l) = byte (48 + d) :: digitBytes l from rfl,
          List.getLast?_cons_cons] at hlast
        rcases hend : (byte (48 + d) :: digitBytes l).getLast? with _ | b
        · exact absurd (List.getLast?_eq_none_iff.1 hend) (List.cons_ne_nil _ _)
        · rw [hend] at hlast
          cases hlast
          exact List.mem_of_getLast? hend
      exact digitBytes_noPoint hl₁ hmem

/-! ## Reading it back -/

def written (l₁ : List Nat) : Numeral := ⟨decide (m.units.toInt < 0), wholeDigits m, l₁, 0⟩

def writtenUnits : Nat :=
  m.units.toInt.natAbs / ull (10 ^ moneyScaleOf m) * 10 ^ moneyScaleOf m +
    m.units.toInt.natAbs % ull (10 ^ moneyScaleOf m) / 10 ^ (moneyScaleOf m - (fracDigits m).length) *
      10 ^ (moneyScaleOf m - (fracDigits m).length)

variable {m : MoneyValue} {l₁ l₂ : List Nat}

theorem written_spells {point : List Byte} (hl : fracDigits m = l₁ ++ l₂) (hpoint : SpellsPoint l₁ point) :
    Spells (written m l₁) (signBytes m ++ (digitBytes (wholeDigits m) ++ point)) := by
  refine ⟨fun d hd => ?_, fun h => ?_, [], signBytes m, point, [], [], (fun b hb => by cases hb), ?_, hpoint, .none,
    (fun b hb => by cases hb), by rw [nil_append, append_nil, append_nil]; rfl⟩
  · rcases mem_append.1 hd with h | h
    · exact decDigits_lt _ d h
    · exact padDigits_lt _ _ d (List.mem_of_mem_take (show d ∈ fracDigits m by
        rw [hl]
        exact List.mem_append_left _ h))
  · have := (head_length m).1
    rw [show wholeDigits m = [] from (List.append_eq_nil_iff.1 h).1] at this
    exact absurd this (by decide)
  · show SpellsSign (decide (m.units.toInt < 0)) (signBytes m)
    unfold signBytes
    split_ifs with h
    · rw [decide_eq_true h]
      exact .minus
    · rw [decide_eq_false h]
      exact .none

theorem scale_bounds (m : MoneyValue) : 4 ≤ moneyScaleOf m ∧ moneyScaleOf m < 260 := by
  have := m.exponent.isLt
  unfold moneyScaleOf MONEY_GUARD_DIGITS
  omega

theorem frac_lt (hdiv : ull (10 ^ moneyScaleOf m) ≠ 0) :
    m.units.toInt.natAbs % ull (10 ^ moneyScaleOf m) < 10 ^ moneyScaleOf m :=
  lt_of_lt_of_le (Nat.mod_lt _ (Nat.pos_of_ne_zero hdiv)) (Nat.mod_le _ _)

theorem fracDigits_length (hdiv : ull (10 ^ moneyScaleOf m) ≠ 0) : (fracDigits m).length =
    min (62 - (signBytes m ++ digitBytes (wholeDigits m)).length) (moneyScaleOf m) := by
  unfold fracDigits
  rw [List.length_take, padDigits_length (by have := (scale_bounds m).1; omega) (frac_lt hdiv)]

theorem written_number (hdiv : ull (10 ^ moneyScaleOf m) ≠ 0) (hl : fracDigits m = l₁ ++ l₂)
    (hzero : digitNumber l₂ = 0) :
    digitNumber (written m l₁).digits * 10 ^ (moneyScaleOf m - l₁.length) = writtenUnits m := by
  have hscale := (scale_bounds m).1
  have hlen := fracDigits_length hdiv
  have hle : l₁.length + l₂.length ≤ moneyScaleOf m := by
    rw [← length_append, ← hl, hlen]
    exact min_le_right _ _
  have hfrac : digitNumber l₁ * 10 ^ l₂.length =
      m.units.toInt.natAbs % ull (10 ^ moneyScaleOf m) / 10 ^ (moneyScaleOf m - (fracDigits m).length) := by
    have h := digitNumber_append l₁ l₂
    rw [hzero, add_zero, ← hl] at h
    rw [← h]
    have htake := @number_take (moneyScaleOf m) _ (fracDigits m).length (by omega) (frac_lt hdiv)
    rw [← htake]
    congr 1
    unfold fracDigits
    rw [List.length_take, padDigits_length (by omega) (frac_lt hdiv)]
    rcases le_total (62 - (signBytes m ++ digitBytes (wholeDigits m)).length) (moneyScaleOf m) with h | h
    · rw [min_eq_left h]
    · rw [min_eq_right h, List.take_of_length_le, List.take_of_length_le]
      · rw [padDigits_length (by omega) (frac_lt hdiv)]
      · rw [padDigits_length (by omega) (frac_lt hdiv)]
        exact h
  have hsum : (fracDigits m).length = l₁.length + l₂.length := by rw [hl, length_append]
  rw [hsum] at hfrac
  unfold writtenUnits
  rw [hsum, ← hfrac]
  show digitNumber (wholeDigits m ++ l₁) * _ = _
  rw [digitNumber_append, show digitNumber (wholeDigits m) = _ from number_decDigits _, add_mul, mul_assoc, ← pow_add,
    mul_assoc, ← pow_add]
  congr 3
  · omega
  · omega

theorem significant_length {l : List Nat} {k : Nat} (h : digitNumber l < 10 ^ k) : (significant l).length ≤ k := by
  have hstops := List.head?_dropWhile_not (fun d => decide (d = 0)) l
  rw [← number_significant] at h
  unfold significant at *
  rcases hl : l.dropWhile (fun d => decide (d = 0)) with _ | ⟨d, r⟩
  · exact Nat.zero_le _
  · rw [hl] at h hstops
    have hd : 1 ≤ d := Nat.one_le_iff_ne_zero.2 (by simpa using hstops)
    rw [digitNumber_cons] at h
    have hlt : 10 ^ r.length < 10 ^ k :=
      lt_of_le_of_lt (le_trans (Nat.le_mul_of_pos_left _ hd) (Nat.le_add_right _ _)) h
    rw [List.length_cons]
    exact (Nat.pow_lt_pow_iff_right (by decide)).1 hlt

theorem written_unkept : unkept (written m l₁).whole = 0 := by
  have hlen : (significant (wholeDigits m)).length ≤ (wholeDigits m).length := List.length_dropWhile_le ..
  have := (head_length m).2.1
  show (significant (wholeDigits m)).length - 40 = 0
  omega

theorem written_fits (hdiv : ull (10 ^ moneyScaleOf m) ≠ 0) (hl : fracDigits m = l₁ ++ l₂) :
    (written m l₁).Fits (moneyScaleOf m) := by
  have hscale := scale_bounds m
  have hun := @written_unkept m l₁
  have hle : l₁.length ≤ 62 := by
    have hlen := fracDigits_length hdiv
    rw [hl, length_append] at hlen
    omega
  have hplaces : (written m l₁).places = l₁.length := by
    show (l₁.length : Int) - unkept (written m l₁).whole = _
    rw [hun]
    omega
  have hclamp : clampInt (written m l₁).exponent = 0 := clampInt_zero
  have hkept : ((significant (written m l₁).digits).take 40).length ≤ 40 := by
    rw [List.length_take]
    exact min_le_left _ _
  refine ⟨?_, ?_, ?_, ?_, ?_⟩
  · rw [hun]
    decide
  · rw [hplaces]
    unfold IsInt
    omega
  · rw [hplaces]
    unfold IsInt
    omega
  · rw [hplaces, hclamp]
    unfold IsInt
    omega
  · unfold Numeral.kept IsInt
    rw [hplaces, hclamp]
    omega

theorem written_value (hdiv : ull (10 ^ moneyScaleOf m) ≠ 0) (hl : fracDigits m = l₁ ++ l₂)
    (hzero : digitNumber l₂ = 0) :
    (written m l₁).value * (10 : ℚ) ^ (moneyScaleOf m : Int) = sign (decide (m.units.toInt < 0)) * writtenUnits m := by
  have hle : l₁.length ≤ moneyScaleOf m := by
    have hlen := fracDigits_length hdiv
    rw [hl, length_append] at hlen
    omega
  rw [← written_number hdiv hl hzero]
  show sign _ * (digitNumber (written m l₁).digits * (10 : ℚ) ^ (0 - (l₁.length : Int))) * _ = _
  have hexp : (10 : ℚ) ^ (0 - (l₁.length : Int)) * (10 : ℚ) ^ (moneyScaleOf m : Int) =
      (10 : ℚ) ^ (moneyScaleOf m - l₁.length) := by
    rw [← zpow_add₀ (by norm_num), ← zpow_natCast]
    congr 1
    omega
  rw [mul_assoc, mul_assoc, hexp]
  push_cast
  rfl

/-- Reading what is written at the value's scale gives back its units, by either rule. -/
def RoundTrips (m : MoneyValue) : Prop :=
  ∃ l : CString, moneyRenderExact m 64 = some l.bytes ∧
    ∀ excess, moneyParseDecimal l (moneyScaleOf m) excess = some (.ok m.units.toInt)

/-- The scale's power of ten is what it is in sixty-four bits; or it is not nothing, the units do not reach it, and what
the buffer has no room for is zeros. -/
def ScaleHolds (m : MoneyValue) : Prop :=
  ull (10 ^ moneyScaleOf m) ≠ 0 ∧ (moneyScaleOf m ≤ 19 ∨ m.units.toInt.natAbs < ull (10 ^ moneyScaleOf m) ∧
    10 ^ (moneyScaleOf m + (if m.units.toInt < 0 then 1 else 0) - 61) ∣ m.units.toInt.natAbs)

theorem written_ends {point : List Byte} (hl : ∀ d ∈ l₁, d < 10) (hpoint : SpellsPoint l₁ point) :
    ∀ b ∈ signBytes m ++ (digitBytes (wholeDigits m) ++ point), b.val ≠ 0 := by
  have hdigits : ∀ {l : List Nat}, (∀ d ∈ l, d < 10) → ∀ b ∈ digitBytes l, b.val ≠ 0 := by
    intro l hl b hb
    obtain ⟨d, hd, rfl⟩ := List.mem_map.1 hb
    have := hl d hd
    interval_cases d <;> decide
  intro b hb
  rcases mem_append.1 hb with h | h
  · unfold signBytes at h
    split_ifs at h
    · rw [List.mem_singleton.1 h]
      decide
    · cases h
  · rcases mem_append.1 h with h | h
    · exact hdigits (decDigits_lt _) b h
    · cases hpoint with
      | none => cases h
      | point =>
        rcases List.mem_cons.1 h with rfl | h
        · decide
        · exact hdigits hl b h

theorem signed_units (m : MoneyValue) : signed (decide (m.units.toInt < 0)) m.units.toInt.natAbs = m.units.toInt := by
  unfold signed
  by_cases h : m.units.toInt < 0
  · rw [if_pos (decide_eq_true h)]
    omega
  · rw [if_neg (by simpa using h)]
    omega

theorem signed_inj {negative : Bool} {a b : Nat} (h : signed negative a = signed negative b) : a = b := by
  unfold signed at h
  cases negative
  · rw [if_neg Bool.false_ne_true, if_neg Bool.false_ne_true] at h
    exact_mod_cast h
  · rw [if_pos rfl, if_pos rfl] at h
    exact_mod_cast neg_injective h

/-- A number of units that are few is read as them. -/
theorem few_read (hdiv : ull (10 ^ moneyScaleOf m) ≠ 0) (hl : fracDigits m = l₁ ++ l₂) (hzero : digitNumber l₂ = 0)
    (hfew : writtenUnits m ≤ m.units.toInt.natAbs) {l : CString} (hspells : Spells (written m l₁) l.bytes)
    (excess : Excess) :
    moneyParseDecimal l (moneyScaleOf m) excess = some (.ok m.units.toInt) ↔ writtenUnits m = m.units.toInt.natAbs := by
  have hmag := units_le m
  have hnumber := written_number hdiv hl hzero
  have hvalue := written_value hdiv hl hzero
  have hlen : (significant (written m l₁).digits).length ≤ 19 := by
    refine significant_length ?_
    have hle : digitNumber (written m l₁).digits ≤ writtenUnits m := by
      rw [← hnumber]
      exact Nat.le_mul_of_pos_right _ (by positivity)
    rw [show 10 ^ 19 = 10000000000000000000 by norm_num]
    omega
  have hlost : (written m l₁).lost = 0 := by
    unfold Numeral.lost
    rw [written_unkept, show clampInt (written m l₁).exponent = 0 from clampInt_zero,
      show (written m l₁).exponent = 0 from rfl]
    omega
  have hle : writtenUnits m ≤ limitOf (decide (m.units.toInt < 0)) := by
    have hlimit := signed_inLong.1 (show InLong (signed (decide (m.units.toInt < 0)) m.units.toInt.natAbs) by
      rw [signed_units]
      have h1 := BitVec.le_toInt m.units
      have h2 := BitVec.toInt_lt (x := m.units)
      norm_num at h1 h2
      exact ⟨by omega, by omega⟩)
    omega
  have hint : 2 * |(written m l₁).value * (10 : ℚ) ^ (moneyScaleOf m - (written m l₁).lost)| ≠ 1 := by
    rw [hlost, sub_zero, hvalue, abs_mul, show |sign (decide (m.units.toInt < 0))| = 1 by
      unfold sign
      split_ifs <;> simp, one_mul, Nat.abs_cast]
    intro h
    have : 2 * writtenUnits m = 1 := by exact_mod_cast h
    omega
  obtain ⟨r, hr, hz⟩ := (reads_spelled hspells).2 ⟨written_fits hdiv hl, fun h => hint h.2.1, .inl hlost⟩
  rw [hvalue] at hz
  have hround : Rounds ((writtenUnits m : ℕ) : ℚ) (writtenUnits m : ℕ) := by
    exact_mod_cast Rounds.intCast (K := ℚ) (writtenUnits m : ℕ)
  rw [hr, Option.some.injEq, hz, ← accepts_ok hround hle (fun _ => rfl), Except.ok.injEq]
  have hunits := signed_units m
  constructor
  · intro h
    exact signed_inj (h.trans hunits.symm)
  · intro h
    rw [h, hunits]

theorem many_unread (hdiv : ull (10 ^ moneyScaleOf m) ≠ 0) (hscale : 20 ≤ moneyScaleOf m)
    (hge : ull (10 ^ moneyScaleOf m) ≤ m.units.toInt.natAbs) (hl : fracDigits m = l₁ ++ l₂) (hzero : digitNumber l₂ = 0)
    {l : CString} (hspells : Spells (written m l₁) l.bytes) :
    moneyParseDecimal l (moneyScaleOf m) .reject ≠ some (.ok m.units.toInt) := by
  intro h
  obtain ⟨-, hr⟩ := (parse_spelled hspells _).1 h
  have hsig := Numeral.significant_split hspells.digits
  have happ : (significant (written m l₁).digits).take 40 ++ (significant (written m l₁).digits).drop 40 =
      significant (written m l₁).digits := List.take_append_drop ..
  have hiff := (@units_iff _ _ (written m l₁).negative .reject ((written m l₁).kept (moneyScaleOf m)) hsig
    (fun hh => by cases hh.1) m.units.toInt).1 hr.symm
  have hvalue := written_value hdiv hl hzero
  rw [happ, Numeral.scaled_kept] at hiff
  -- what is read is at least ten to the twentieth
  have hlen : ((significant (written m l₁).digits).length : Int) ≤ 19 + moneyScaleOf m := by
    have h1 : (significant (written m l₁).digits).length ≤ (written m l₁).digits.length := List.length_dropWhile_le ..
    have h2 : (written m l₁).digits.length = (wholeDigits m).length + l₁.length := length_append ..
    have h3 := (head_length m).2.1
    have h4 := fracDigits_length hdiv
    rw [hl, length_append] at h4
    omega
  have hlost : (written m l₁).lost ≤ moneyScaleOf m - 20 := by
    unfold Numeral.lost
    rw [written_unkept, show clampInt (written m l₁).exponent = 0 from clampInt_zero,
      show (written m l₁).exponent = 0 from rfl]
    omega
  have hunits : 10 ^ moneyScaleOf m ≤ writtenUnits m := by
    have hone : 1 ≤ m.units.toInt.natAbs / ull (10 ^ moneyScaleOf m) := Nat.div_pos hge (Nat.pos_of_ne_zero hdiv)
    exact le_trans (Nat.le_mul_of_pos_left _ hone) (Nat.le_add_right _ _)
  have hx : |(written m l₁).value * (10 : ℚ) ^ (moneyScaleOf m - (written m l₁).lost)| =
      writtenUnits m * (10 : ℚ) ^ (-(written m l₁).lost) := by
    have hsplit : (written m l₁).value * (10 : ℚ) ^ (moneyScaleOf m - (written m l₁).lost) =
        sign (decide (m.units.toInt < 0)) * writtenUnits m * (10 : ℚ) ^ (-(written m l₁).lost) := by
      rw [← hvalue, mul_assoc, ← zpow_add₀ (by norm_num), sub_eq_add_neg]
    rw [hsplit, mul_assoc, abs_mul, show |sign (decide (m.units.toInt < 0))| = 1 by
      unfold sign
      split_ifs <;> simp, one_mul, abs_of_nonneg (mul_nonneg (Nat.cast_nonneg _) (zpow_pos (by norm_num) _).le)]
  have hbig : (10 : ℚ) ^ (20 : Int) ≤ writtenUnits m * (10 : ℚ) ^ (-(written m l₁).lost) := by
    have hcast : (10 : ℚ) ^ (moneyScaleOf m : Int) ≤ writtenUnits m := by
      rw [zpow_natCast]
      exact_mod_cast hunits
    have hpow : (10 : ℚ) ^ (20 : Int) ≤ (10 : ℚ) ^ (moneyScaleOf m : Int) * (10 : ℚ) ^ (-(written m l₁).lost) := by
      rw [← zpow_add₀ (by norm_num)]
      exact zpow_le_zpow_right₀ (by norm_num) (by omega)
    exact le_trans hpow (mul_le_mul_of_nonneg_right hcast (zpow_pos (by norm_num) _).le)
  have heq : (written m l₁).value * (10 : ℚ) ^ (moneyScaleOf m - (written m l₁).lost) = ((m.units.toInt : Int) : ℚ) :=
    hiff.2
  rw [heq] at hx
  have hmag : |((m.units.toInt : Int) : ℚ)| ≤ 9223372036854775808 := by
    rw [← Int.cast_abs, Int.abs_eq_natAbs]
    exact_mod_cast units_le m
  rw [hx] at hmag
  rw [show (10 : ℚ) ^ (20 : Int) = 100000000000000000000 by norm_num] at hbig
  linarith

/-- **What is written is read back** just where the scale's power of ten holds. -/
theorem roundTrips_iff (m : MoneyValue) : RoundTrips m ↔ ScaleHolds m := by
  by_cases hdiv : ull (10 ^ moneyScaleOf m) = 0
  · refine iff_of_false ?_ (fun h => h.1 hdiv)
    have hnone : moneyRender m (moneyScaleOf m) 64 = none := by
      unfold moneyRender
      rcases moneyPlaces m.units.toInt.natAbs (moneyScaleOf m) (moneyScaleOf m) with _ | mag
      · rfl
      · dsimp only
        rw [if_pos hdiv]
    rintro ⟨l, hl, -⟩
    unfold moneyRenderExact at hl
    rw [hnone] at hl
    cases hl
  obtain ⟨l₁, l₂, point, hl, hzero, hpoint, hrender⟩ := render_exact m hdiv
  have hl₁ : ∀ d ∈ l₁, d < 10 := fun d hd => padDigits_lt _ _ d (List.mem_of_mem_take (show d ∈ fracDigits m by
    rw [hl]
    exact List.mem_append_left _ hd))
  obtain ⟨l, hbytes⟩ : ∃ l : CString, l.bytes = signBytes m ++ (digitBytes (wholeDigits m) ++ point) :=
    ⟨⟨_, written_ends hl₁ hpoint⟩, rfl⟩
  have hspells : Spells (written m l₁) l.bytes := hbytes ▸ written_spells hl hpoint
  have htrips : RoundTrips m ↔ ∀ excess, moneyParseDecimal l (moneyScaleOf m) excess = some (.ok m.units.toInt) := by
    constructor
    · rintro ⟨l', hl', hread⟩
      rw [hrender, ← hbytes, Option.some.injEq] at hl'
      obtain rfl : l = l' := by
        cases l
        cases l'
        cases hl'
        rfl
      exact hread
    · exact fun h => ⟨l, by rw [hrender, hbytes], h⟩
  rw [htrips]
  have hdivmod := Nat.div_add_mod m.units.toInt.natAbs (ull (10 ^ moneyScaleOf m))
  have hread : writtenUnits m ≤ m.units.toInt.natAbs → ((∀ excess, moneyParseDecimal l (moneyScaleOf m) excess =
      some (.ok m.units.toInt)) ↔ writtenUnits m = m.units.toInt.natAbs) := by
    intro hfew
    exact ⟨fun h => (few_read hdiv hl hzero hfew hspells .round).1 (h .round), fun h excess =>
      (few_read hdiv hl hzero hfew hspells excess).2 h⟩
  obtain ⟨hlow, hhigh, hlen⟩ := head_length m
  have hfrac := fracDigits_length hdiv
  by_cases hsmall : moneyScaleOf m ≤ 19
  · have hpow : ull (10 ^ moneyScaleOf m) = 10 ^ moneyScaleOf m := by
      have := Nat.pow_le_pow_right (show 0 < 10 by decide) hsmall
      rw [show 10 ^ 19 = 10000000000000000000 by norm_num] at this
      exact Nat.mod_eq_of_lt (by omega)
    have hall : moneyScaleOf m - (fracDigits m).length = 0 := by
      rw [hfrac, hlen]
      split_ifs <;> omega
    have hunits : writtenUnits m = m.units.toInt.natAbs := by
      unfold writtenUnits
      rw [hall, pow_zero, Nat.div_one, mul_one, mul_comm, hpow]
      rwa [hpow] at hdivmod
    exact iff_of_true ((hread hunits.le).2 hunits) ⟨hdiv, .inl hsmall⟩
  by_cases hlt : m.units.toInt.natAbs < ull (10 ^ moneyScaleOf m)
  · have hwhole : (wholeDigits m).length = 1 := by
      unfold wholeDigits
      rw [Nat.div_eq_of_lt hlt]
      rfl
    have hleft : moneyScaleOf m - (fracDigits m).length =
        moneyScaleOf m + (if m.units.toInt < 0 then 1 else 0) - 61 := by
      rw [hfrac, hlen, hwhole]
      split_ifs <;> omega
    have hunits : writtenUnits m = m.units.toInt.natAbs /
        10 ^ (moneyScaleOf m + (if m.units.toInt < 0 then 1 else 0) - 61) *
          10 ^ (moneyScaleOf m + (if m.units.toInt < 0 then 1 else 0) - 61) := by
      unfold writtenUnits
      rw [hleft, Nat.div_eq_of_lt hlt, Nat.mod_eq_of_lt hlt, zero_mul, zero_add]
    rw [hread (hunits ▸ Nat.div_mul_le_self _ _), hunits]
    constructor
    · exact fun h => ⟨hdiv, .inr ⟨hlt, Dvd.intro_left _ h⟩⟩
    · rintro ⟨-, h | ⟨-, h⟩⟩
      · exact absurd h hsmall
      · exact Nat.div_mul_cancel h
  · refine iff_of_false (fun h => ?_) ?_
    · exact many_unread hdiv (by omega) (not_lt.1 hlt) hl hzero hspells (h .reject)
    · rintro ⟨-, h | ⟨h, -⟩⟩
      · exact hsmall h
      · exact hlt h

end

/-! ## Money and text -/

/-- **Money text is read exactly, and money is written to be read back**, exactly where nothing of a number is lost to
the buffer of digits or to the exponent's, no half unit has zeros written after it, the counts are `int`s, and the power
of ten of a value's scale is held in sixty-four bits. -/
theorem money_text_iff (s : CString) (scale : Int) (excess : Excess) (m : MoneyValue) :
    ((ReadsExactly s scale excess ↔ (∀ n, Spells n s.bytes → n.Fits scale ∧ n.ReadRight scale excess) ∧
        ((∀ n, ¬ Spells n s.bytes) → Counted s.bytes)) ∧
      (RoundTrips m ↔ ScaleHolds m)) :=
  ⟨readsExactly_iff, roundTrips_iff m⟩

/-- One with forty zeros after its point is read as a tenth, and half a unit with a zero after it as one. -/
theorem zeros_misread :
    ¬ ReadsExactly (CString.of (text "1.0000000000000000000000000000000000000000")) 2 .round ∧
      ¬ ReadsExactly (CString.of (text "0.50")) 0 .round := by
  have hplain : ∀ {w f : List Nat} {s : CString}, (∀ d ∈ w ++ f, d < 10) → w ++ f ≠ [] →
      s.bytes = digitBytes w ++ (byte '.'.toNat :: digitBytes f) → Spells ⟨false, w, f, 0⟩ s.bytes := by
    intro w f s hlt hne hs
    exact ⟨hlt, hne, [], [], _, [], [], (fun b hb => by cases hb), .none, .point f, .none, (fun b hb => by cases hb), by
      rw [hs, List.nil_append, List.nil_append, List.append_nil, List.append_nil]⟩
  constructor
  · intro h
    have hspells : Spells ⟨false, [1], List.replicate 40 0, 0⟩
        (CString.of (text "1.0000000000000000000000000000000000000000")).bytes :=
      hplain (by decide) (by decide) (by decide +kernel)
    obtain ⟨r, hr, hz⟩ := h.spelled _ hspells
    have hcode : moneyParseDecimal (CString.of (text "1.0000000000000000000000000000000000000000")) 2 .round =
        some (.ok 10) := by
      decide +kernel
    rw [hcode] at hr
    cases hr
    have hten := accepts_rounds ((hz 10).1 rfl)
    have hvalue : (Numeral.mk false [1] (List.replicate 40 0) 0).value * (10 : ℚ) ^ (2 : Int) = ((100 : Int) : ℚ) := by
      have hnumber : digitNumber ([1] ++ List.replicate 40 0) = 10 ^ 40 := by
        rw [digitNumber_append, digitNumber_replicate, List.length_replicate]
        rfl
      show sign false * ((digitNumber ([1] ++ List.replicate 40 0) : ℕ) * (10 : ℚ) ^ (0 - ((40 : ℕ) : Int))) * _ = _
      rw [hnumber]
      norm_num [sign]
    rw [hvalue] at hten
    exact absurd (hten.unique (Rounds.intCast 100)) (by decide)
  · intro h
    have hspells : Spells ⟨false, [0], [5, 0], 0⟩ (CString.of (text "0.50")).bytes :=
      hplain (by decide) (by decide) (by decide +kernel)
    obtain ⟨r, hr, hz⟩ := h.spelled _ hspells
    have hcode : moneyParseDecimal (CString.of (text "0.50")) 0 .round = some (.ok 1) := by decide +kernel
    rw [hcode] at hr
    cases hr
    have hone := accepts_rounds ((hz 1).1 rfl)
    have hvalue : (Numeral.mk false [0] [5, 0] 0).value * (10 : ℚ) ^ (0 : Int) = 1 / 2 := by
      show sign false * ((digitNumber [0, 5, 0] : ℕ) * (10 : ℚ) ^ (0 - ((2 : ℕ) : Int))) * _ = _
      rw [show digitNumber [0, 5, 0] = 50 by decide +kernel]
      norm_num [sign]
    rw [hvalue] at hone
    have hzero : Rounds (1 / 2 : ℚ) 0 := rounds_zero.2 (by norm_num)
    exact absurd (hone.unique hzero) (by decide)

end Money
end Gbasic
