import Mathlib.Data.List.Basic
import Mathlib.Logic.Function.Iterate
/-!
# Register — a remainder in a shift register (library)

A register moves down a place at a time, and where a set bit goes out its taps `P` are turned over.  A message goes
through it bit by bit (`feed`).  Moving keeps exclusive or, so what a register holds and what it is fed add up
(`feed_eq`), and as many bits as it is wide go in as one word (`feed_word`): the reason why several bytes may go in at
once, each by a table of its own.  With the top tap set no two registers move to one, so a change within the width of
the register is never missed (`feed_burst`).  Nothing here names a repository.
-/
namespace Gbasic
namespace Register

open BitVec (eq_of_getElem_eq getLsbD_xor xor_assoc xor_zero)

/-! ## Words and their bits -/

def bits {w : Nat} (n : Nat) (c : BitVec w) : List Bool := (List.range n).map c.getLsbD

/-- A word of these bits, the first the lowest. -/
def word (w : Nat) (l : List Bool) : BitVec w := (BitVec.ofBoolListLE l).setWidth w

section Word

variable {w : Nat}

@[simp] theorem length_bits (n : Nat) (c : BitVec w) : (bits n c).length = n := by
  rw [bits, List.length_map, List.length_range]

@[simp] theorem getElem_word (l : List Bool) {i : Nat} (h : i < w) : (word w l)[i] = l[i]?.getD false := by
  simp [word]

theorem getLsbD_word (l : List Bool) (i : Nat) :
    (word w l).getLsbD i = (decide (i < w) && l[i]?.getD false) := by
  simp [word]

@[simp] theorem word_nil : word w [] = 0#w := by
  apply eq_of_getElem_eq
  intro i hi
  simp

theorem bits_add (m n : Nat) (c : BitVec w) : bits (m + n) c = bits m c ++ bits n (c >>> m) := by
  rw [bits, List.range_add, List.map_append, List.map_map]
  congr 1
  apply List.map_congr_left
  intro i _
  rw [BitVec.getLsbD_ushiftRight]
  rfl

theorem word_bits (c : BitVec w) : word w (bits w c) = c := by
  apply eq_of_getElem_eq
  intro i hi
  simp [bits, hi]

theorem bits_word {l : List Bool} (h : l.length ≤ w) : bits l.length (word w l) = l := by
  apply List.ext_getElem (length_bits _ _)
  intro i hi hl
  simp [bits, hl, Nat.lt_of_lt_of_le hl h]

theorem word_append (l m : List Bool) : word w (l ++ m) = word w l ||| word w m <<< l.length := by
  apply eq_of_getElem_eq
  intro i hi
  rcases Nat.lt_or_ge i l.length with hl | hl
  · simp [hl, List.getElem?_append_left hl]
  · simp [Nat.not_lt.2 hl, List.getElem?_append_right hl]

theorem word_cons (b : Bool) (l : List Bool) : word w (b :: l) = word w [b] ^^^ word w l <<< 1 := by
  apply eq_of_getElem_eq
  intro i hi
  cases i with
  | zero => simp
  | succ i => simp

end Word

/-! ## The register -/

section
variable {w : Nat} (P : BitVec w)

def shift (c : BitVec w) : BitVec w := c >>> 1 ^^^ if c.getLsbD 0 then P else 0#w

def advance (n : Nat) (c : BitVec w) : BitVec w := (shift P)^[n] c

/-- One place down, a bit of the message met with the bit that goes out. -/
def take (c : BitVec w) (b : Bool) : BitVec w := c >>> 1 ^^^ if c.getLsbD 0 ^^ b then P else 0#w

def feed (c : BitVec w) (l : List Bool) : BitVec w := l.foldl (take P) c

theorem turned_xor (a b : Bool) :
    (if a ^^ b then P else 0#w) = (if a then P else 0#w) ^^^ (if b then P else 0#w) := by
  cases a <;> cases b <;> simp

theorem shift_xor (a b : BitVec w) : shift P (a ^^^ b) = shift P a ^^^ shift P b := by
  simp only [shift, getLsbD_xor, BitVec.ushiftRight_xor_distrib, turned_xor]
  ac_rfl

theorem advance_xor : ∀ (n : Nat) (a b : BitVec w), advance P n (a ^^^ b) = advance P n a ^^^ advance P n b
  | 0, _, _ => rfl
  | n + 1, a, b => by
    simp only [advance, Function.iterate_succ_apply, shift_xor]
    exact advance_xor n _ _

theorem advance_add (m n : Nat) (c : BitVec w) : advance P (m + n) c = advance P m (advance P n c) :=
  Function.iterate_add_apply (shift P) m n c

theorem advance_low : ∀ (n : Nat) (c : BitVec w), (∀ i, i < n → c.getLsbD i = false) → advance P n c = c >>> n
  | 0, c, _ => by
    rw [BitVec.ushiftRight_zero]
    rfl
  | n + 1, c, h => by
    have hs : shift P c = c >>> 1 := by
      rw [shift, h 0 (Nat.succ_pos n)]
      simp
    have ih := advance_low n (c >>> 1) (fun i hi => by
      rw [BitVec.getLsbD_ushiftRight]
      exact h (1 + i) (by omega))
    rw [advance, Function.iterate_succ_apply, hs, Nat.add_comm n 1, BitVec.shiftRight_add]
    exact ih

theorem advance_agree (n : Nat) {c d : BitVec w} (h : ∀ i, i < n → c.getLsbD i = d.getLsbD i) :
    advance P n c = (c ^^^ d) >>> n ^^^ advance P n d := by
  have hlow : advance P n (c ^^^ d) = (c ^^^ d) >>> n := by
    apply advance_low
    intro i hi
    rw [getLsbD_xor, h i hi, Bool.xor_self]
  rw [← hlow, ← advance_xor, xor_assoc, BitVec.xor_self, xor_zero]

theorem feed_append (c : BitVec w) (l m : List Bool) : feed P c (l ++ m) = feed P (feed P c l) m :=
  List.foldl_append

theorem take_xor (a c : BitVec w) (b : Bool) : take P (a ^^^ c) b = shift P a ^^^ take P c b := by
  simp only [take, shift, getLsbD_xor, BitVec.ushiftRight_xor_distrib, Bool.xor_assoc,
    turned_xor P (a.getLsbD 0)]
  ac_rfl

theorem feed_xor : ∀ (l : List Bool) (a c : BitVec w), feed P (a ^^^ c) l = advance P l.length a ^^^ feed P c l
  | [], _, _ => rfl
  | b :: l, a, c => by
    show feed P (take P (a ^^^ c) b) l = _
    rw [take_xor, feed_xor l]
    rfl

/-- **A register and a message add up.** -/
theorem feed_eq (c : BitVec w) (l : List Bool) : feed P c l = advance P l.length c ^^^ feed P 0#w l := by
  rw [← feed_xor, xor_zero]

theorem take_eq (c : BitVec w) (b : Bool) : take P c b = shift P (c ^^^ word w [b]) := by
  rcases Nat.eq_zero_or_pos w with rfl | hw
  · exact eq_of_getElem_eq (fun i hi => absurd hi (Nat.not_lt_zero i))
  · have hout : word w [b] >>> 1 = 0#w := by
      apply eq_of_getElem_eq
      intro i hi
      simp [getLsbD_word]
    have hlow : (word w [b]).getLsbD 0 = b := by
      simp [hw]
    rw [take, shift, BitVec.ushiftRight_xor_distrib, hout, xor_zero, getLsbD_xor, hlow]

/-- **No more bits than the register is wide go in as one word.** -/
theorem feed_word : ∀ (l : List Bool) (c : BitVec w), l.length ≤ w →
    feed P c l = advance P l.length (c ^^^ word w l)
  | [], c, _ => by
    rw [word_nil, xor_zero]
    rfl
  | b :: l, c, h => by
    have hl : l.length < w := h
    -- the later bits, a place up, come down to where they are when their turn comes
    have hlow : shift P (word w l <<< 1) = word w l := by
      have hclear : (word w l <<< 1).getLsbD 0 = false := by simp
      rw [shift, hclear]
      apply eq_of_getElem_eq
      intro i hi
      rcases Nat.lt_or_ge (1 + i) w with hw | hw
      · simp [hw]
      · have hnone : l[i]? = none := List.getElem?_eq_none (by omega)
        simp [hnone, Nat.not_lt.2 hw]
    calc feed P c (b :: l)
        = feed P (take P c b) l := rfl
      _ = advance P l.length (take P c b ^^^ word w l) := feed_word l _ (Nat.le_of_lt hl)
      _ = advance P l.length (shift P (c ^^^ word w [b]) ^^^ shift P (word w l <<< 1)) := by
          rw [take_eq, hlow]
      _ = advance P l.length (shift P (c ^^^ word w (b :: l))) := by
          rw [← shift_xor, word_cons b l, xor_assoc]

theorem feed_bits (c : BitVec w) (l m : List Bool) (h : l.length = w) :
    feed P c (l ++ m) = feed P 0#w (bits w (c ^^^ word w l) ++ m) := by
  have hbits := feed_word P (bits w (c ^^^ word w l)) 0#w (Nat.le_of_eq (length_bits _ _))
  rw [length_bits, word_bits, BitVec.zero_xor] at hbits
  rw [feed_append, feed_append, feed_word P l c (Nat.le_of_eq h), h, hbits]

/-! ## What is never missed -/

variable {P} (hP : P.getLsbD (w - 1) = true)
include hP

theorem shift_eq_zero {c : BitVec w} (h : shift P c = 0#w) : c = 0#w := by
  have hw : 0 < w := by
    rcases Nat.eq_zero_or_pos w with rfl | hw
    · simp at hP
    · exact hw
  -- the top bit tells whether the taps were turned over
  have h0 : c.getLsbD 0 = false := by
    have hout : c.getLsbD (1 + (w - 1)) = false := BitVec.getLsbD_of_ge _ _ (by omega)
    have htop := congrArg (fun x : BitVec w => x.getLsbD (w - 1)) h
    rw [shift, getLsbD_xor, BitVec.getLsbD_ushiftRight, hout] at htop
    cases hc : c.getLsbD 0
    · rfl
    · rw [hc, if_pos rfl, hP] at htop
      simp at htop
  rw [shift, h0, if_neg Bool.false_ne_true, xor_zero] at h
  apply BitVec.eq_of_getLsbD_eq
  intro i hi
  cases i with
  | zero => simpa using h0
  | succ i =>
    have hi := congrArg (fun x : BitVec w => x.getLsbD i) h
    simpa [Nat.add_comm 1 i] using hi

theorem shift_injective : Function.Injective (shift P) := by
  intro a b h
  have hz : shift P (a ^^^ b) = 0#w := by
    rw [shift_xor, h, BitVec.xor_self]
  exact BitVec.xor_eq_zero_iff.1 (shift_eq_zero hP hz)

theorem feed_injective (l : List Bool) : Function.Injective (fun c => feed P c l) := by
  intro a b h
  have h' : advance P l.length a ^^^ feed P 0#w l = advance P l.length b ^^^ feed P 0#w l := by
    rw [← feed_eq, ← feed_eq]
    exact h
  exact (shift_injective hP).iterate l.length ((BitVec.xor_left_inj _).1 h')

/-- **A change within the width of the register shows**, whatever goes before and after. -/
theorem feed_burst (c : BitVec w) (a b : List Bool) {l m : List Bool} (hl : l.length ≤ w) (hm : m.length = l.length)
    (h : feed P c (a ++ l ++ b) = feed P c (a ++ m ++ b)) : l = m := by
  rw [feed_append, feed_append, feed_append P c (a ++ m), feed_append P c a] at h
  have h := feed_injective hP b h
  rw [feed_word P l _ hl, feed_word P m _ (hm ▸ hl), hm] at h
  have hw := (BitVec.xor_right_inj _).1 ((shift_injective hP).iterate l.length h)
  rw [← bits_word hl, hw, ← hm, bits_word (hm ▸ hl)]

end
end Register
end Gbasic
