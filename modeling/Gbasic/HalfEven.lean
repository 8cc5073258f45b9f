import Mathlib.Algebra.Order.Field.Basic
import Mathlib.Data.Nat.Digits.Lemmas
import Mathlib.Tactic.Linarith
import Mathlib.Tactic.Ring
/-!
# HalfEven — rounding to a whole number, halves to even (library)

The whole number that is nearest, and the even one of two that are (`Rounds.unique`); of a quotient of naturals it is
told by the remainder (`rounds_div`).  Digits are read with the highest first.  Nothing here names a repository.
-/
namespace Gbasic

section
variable {K : Type*} [Field K] [LinearOrder K]

def Rounds (x : K) (n : ℤ) : Prop := 2 * |x - n| ≤ 1 ∧ (2 * |x - n| = 1 → Even n)

theorem Rounds.neg {x : K} {n : ℤ} (h : Rounds x n) : Rounds (-x) (-n) := by
  have habs : |-x - ((-n : ℤ) : K)| = |x - n| := by
    push_cast
    rw [show -x - -(n : K) = -(x - n) by ring, abs_neg]
  unfold Rounds
  rw [habs]
  exact ⟨h.1, fun hone => (h.2 hone).neg⟩

theorem rounds_zero {x : K} : Rounds x 0 ↔ 2 * |x| ≤ 1 := by
  unfold Rounds
  rw [Int.cast_zero, sub_zero]
  exact ⟨fun h => h.1, fun h => ⟨h, fun _ => ⟨0, rfl⟩⟩⟩

variable [IsStrictOrderedRing K]

theorem Rounds.intCast (n : ℤ) : Rounds (n : K) n := by
  refine ⟨?_, fun h => ?_⟩
  · rw [sub_self, abs_zero, mul_zero]
    exact zero_le_one
  · rw [sub_self, abs_zero, mul_zero] at h
    exact absurd h zero_ne_one

/-- **There is no other.** -/
theorem Rounds.unique {x : K} {m n : ℤ} (hm : Rounds x m) (hn : Rounds x n) : m = n := by
  have hmn : |(m : K) - n| ≤ 1 := by
    have h : |(m : K) - n| ≤ |x - n| + |x - m| := by
      rw [show (m : K) - n = (x - n) - (x - m) by ring]
      exact abs_sub _ _
    have := hm.1
    have := hn.1
    linarith
  have hint : |m - n| ≤ 1 := by exact_mod_cast hmn
  obtain ⟨hlo, hhi⟩ := abs_le.1 hint
  by_contra hne
  have heven : Even m ∧ Even n := by
    rcases lt_or_gt_of_ne hne with hlt | hgt
    · obtain rfl : n = m + 1 := by omega
      have h1 := (abs_le.1 (show |x - m| ≤ 1 / 2 by linarith [hm.1])).2
      have h2 := (abs_le.1 (show |x - ((m + 1 : ℤ) : K)| ≤ 1 / 2 by linarith [hn.1])).1
      push_cast at h2
      have hx : x = m + 1 / 2 := by linarith
      refine ⟨hm.2 ?_, hn.2 ?_⟩
      · rw [hx, show (m : K) + 1 / 2 - m = 1 / 2 by ring, abs_of_pos (by norm_num)]
        norm_num
      · rw [hx]
        push_cast
        rw [show (m : K) + 1 / 2 - (m + 1) = -(1 / 2) by ring, abs_neg, abs_of_pos (by norm_num)]
        norm_num
    · obtain rfl : m = n + 1 := by omega
      have h1 := (abs_le.1 (show |x - n| ≤ 1 / 2 by linarith [hn.1])).2
      have h2 := (abs_le.1 (show |x - ((n + 1 : ℤ) : K)| ≤ 1 / 2 by linarith [hm.1])).1
      push_cast at h2
      have hx : x = n + 1 / 2 := by linarith
      refine ⟨hm.2 ?_, hn.2 ?_⟩
      · rw [hx]
        push_cast
        rw [show (n : K) + 1 / 2 - (n + 1) = -(1 / 2) by ring, abs_neg, abs_of_pos (by norm_num)]
        norm_num
      · rw [hx, show (n : K) + 1 / 2 - n = 1 / 2 by ring, abs_of_pos (by norm_num)]
        norm_num
  obtain ⟨⟨i, hi⟩, j, hj⟩ := heven
  omega

def roundUp (q r d : ℕ) : Prop := d < 2 * r ∨ d = 2 * r ∧ q % 2 = 1

instance (q r d : ℕ) : Decidable (roundUp q r d) := inferInstanceAs (Decidable (_ ∨ _))

/-- **A quotient is rounded by its remainder.** -/
theorem rounds_div {q r d : ℕ} (hr : r < d) :
    Rounds (((q * d + r : ℕ) : K) / (d : ℕ)) (if roundUp q r d then q + 1 else q : ℕ) := by
  have hd : (0 : K) < (d : ℕ) := by exact_mod_cast Nat.zero_lt_of_lt hr
  have hx : ((q * d + r : ℕ) : K) / (d : ℕ) = q + (r : K) / d := by
    push_cast
    rw [add_div, mul_div_cancel_right₀ _ hd.ne']
  have h0 : 0 ≤ (r : K) / d := by positivity
  have h1 : (r : K) / d < 1 := (div_lt_one hd).2 (by exact_mod_cast hr)
  have hhalf : ∀ {a b : ℕ}, (a : K) / d < b / d ↔ a < b := by
    intro a b
    rw [div_lt_div_iff_of_pos_right hd]
    exact Nat.cast_lt
  have htwo : 2 * ((r : K) / d) = ((2 * r : ℕ) : K) / d := by
    push_cast
    ring
  have hone : (1 : K) = (d : K) / d := (div_self hd.ne').symm
  rw [hx]
  unfold Rounds
  split_ifs with hup
  · have hge : d ≤ 2 * r := by
      rcases hup with h | h
      · exact h.le
      · exact h.1.le
    have hle : 1 ≤ 2 * ((r : K) / d) := by
      rw [htwo, hone]
      exact (div_le_div_iff_of_pos_right hd).2 (by exact_mod_cast hge)
    have habs : |(q : K) + r / d - ((q + 1 : ℕ) : ℤ)| = 1 - r / d := by
      push_cast
      rw [show (q : K) + r / d - (q + 1) = -(1 - r / d) by ring, abs_neg, abs_of_pos (by linarith)]
    rw [habs]
    refine ⟨by linarith, fun heq => ?_⟩
    have htie : ((2 * r : ℕ) : K) / d = (d : K) / d := by linarith
    have h2 : 2 * r = d := by
      have := (div_left_inj' hd.ne').1 htie
      exact_mod_cast this
    rcases hup with h | ⟨-, hodd⟩
    · omega
    · exact_mod_cast (Nat.even_iff.2 (show (q + 1) % 2 = 0 by omega))
  · obtain ⟨hle, hodd⟩ := not_or.1 hup
    have hle' : 2 * ((r : K) / d) ≤ 1 := by
      rw [htwo, hone]
      exact (div_le_div_iff_of_pos_right hd).2 (by exact_mod_cast not_lt.1 hle)
    have habs : |(q : K) + r / d - ((q : ℕ) : ℤ)| = r / d := by
      rw [Int.cast_natCast, add_sub_cancel_left, abs_of_nonneg h0]
    rw [habs]
    refine ⟨hle', fun heq => ?_⟩
    have htie : ((2 * r : ℕ) : K) / d = (d : K) / d := by linarith
    have h2 : 2 * r = d := by
      have := (div_left_inj' hd.ne').1 htie
      exact_mod_cast this
    exact_mod_cast (Nat.even_iff.2 (show q % 2 = 0 by
      have := not_and.1 hodd h2.symm
      omega))

end

/-! ## Digits -/

def digitNumber (l : List ℕ) : ℕ := Nat.ofDigits 10 l.reverse

theorem digitNumber_nil : digitNumber [] = 0 := rfl

theorem digitNumber_append (l m : List ℕ) : digitNumber (l ++ m) = digitNumber l * 10 ^ m.length + digitNumber m := by
  unfold digitNumber
  rw [List.reverse_append, Nat.ofDigits_append, List.length_reverse, mul_comm, add_comm]

theorem digitNumber_cons (d : ℕ) (l : List ℕ) : digitNumber (d :: l) = d * 10 ^ l.length + digitNumber l := by
  rw [← List.singleton_append, digitNumber_append, show digitNumber [d] = d from Nat.ofDigits_singleton]

theorem digitNumber_replicate (k : ℕ) : digitNumber (List.replicate k 0) = 0 := by
  unfold digitNumber
  rw [List.reverse_replicate, Nat.ofDigits_replicate_zero]

theorem digitNumber_lt {l : List ℕ} (h : ∀ d ∈ l, d < 10) : digitNumber l < 10 ^ l.length := by
  have hlt := Nat.ofDigits_lt_base_pow_length (b := 10) (l := l.reverse) (by decide)
    (fun d hd => h d (List.mem_reverse.1 hd))
  rwa [List.length_reverse] at hlt

theorem digitNumber_eq_zero {l : List ℕ} : digitNumber l = 0 ↔ ∀ d ∈ l, d = 0 := by
  induction l with
  | nil => exact iff_of_true rfl (fun d hd => by cases hd)
  | cons d l ih =>
    rw [digitNumber_cons, List.forall_mem_cons, ← ih]
    have hpos : 0 < 10 ^ l.length := by positivity
    constructor
    · intro h
      obtain ⟨h1, h2⟩ := Nat.add_eq_zero_iff.1 h
      exact ⟨(Nat.mul_eq_zero.1 h1).resolve_right hpos.ne', h2⟩
    · rintro ⟨rfl, h⟩
      rw [h, zero_mul]

end Gbasic
