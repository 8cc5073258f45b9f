import Gbasic.Bytes
import Mathlib.Order.Bounds.Basic
import Mathlib.Tactic.SplitIfs
/-!
# Utf8 — encoding, the lenient reader, and the strict check

`decodeFirst` reads one code point off the front of any bytes, a malformed one as the byte it begins with;
`firstInvalid` is the strict check, which stops at the first sequence that is not UTF-8.  The check goes past a sequence
exactly when it is what a scalar value is encoded to (`strict_encode`, `strict_eq`), so it stops where the longest
encoded prefix ends.
-/
namespace Gbasic
namespace Utf8

variable {n cp : Nat}

abbrev Bytes := List Byte

variable {s l : Bytes}

/-! ## Encoding -/

/-- A code point that is no surrogate. -/
structure Scalar where
  cp : Nat
  valid : cp ≤ 0x10ffff ∧ ¬ (0xd800 ≤ cp ∧ cp ≤ 0xdfff)

def encodeCodepoint (cp : Nat) : Bytes :=
  if cp ≤ 0x7f then [byte cp]
  else if cp ≤ 0x7ff then [byte (0xc0 ||| cp >>> 6), byte (0x80 ||| (cp &&& 0x3f))]
  else if cp ≤ 0xffff then
    [byte (0xe0 ||| cp >>> 12), byte (0x80 ||| ((cp >>> 6) &&& 0x3f)), byte (0x80 ||| (cp &&& 0x3f))]
  else
    [byte (0xf0 ||| cp >>> 18), byte (0x80 ||| ((cp >>> 12) &&& 0x3f)), byte (0x80 ||| ((cp >>> 6) &&& 0x3f)),
      byte (0x80 ||| (cp &&& 0x3f))]

def encode (l : List Scalar) : Bytes := l.flatMap (fun c => encodeCodepoint c.cp)

/-! ## Reading -/

def continued : Nat → Nat → Bytes → Option Nat
  | 0, value, _ => some value
  | _ + 1, _, [] => none
  | k + 1, value, b :: l =>
    if b.val &&& 0xc0 = 0x80 then continued k (value <<< 6 ||| (b.val &&& 0x3f)) l else none

def lead (b : Byte) : Option (Nat × Nat) :=
  if b.val &&& 0xe0 = 0xc0 then some (1, b.val &&& 0x1f)
  else if b.val &&& 0xf0 = 0xe0 then some (2, b.val &&& 0x0f)
  else if b.val &&& 0xf8 = 0xf0 then some (3, b.val &&& 0x07)
  else none

/-- `utf8_decode_first`: the code point, and how many bytes it occupies. -/
def decodeFirst : Bytes → Nat × Nat
  | [] => (0, 0)
  | b :: l =>
    if b.val < 0x80 then (b.val, 1)
    else
      match lead b with
      | none => (b.val, 1)
      | some (need, value) =>
        if l.length + 1 ≤ need then (b.val, 1)
        else
          match continued need value l with
          | none => (b.val, 1)
          | some cp => (cp, need + 1)

/-- The bytes a lead byte asks for, its bits, and the least value they may make, where it can begin a sequence. -/
def strictLead (c : Byte) : Option (Nat × Nat × Nat) :=
  if 0xc2 ≤ c.val ∧ c.val ≤ 0xdf then some (1, c.val &&& 0x1f, 0x80)
  else if c.val &&& 0xf0 = 0xe0 then some (2, c.val &&& 0x0f, 0x800)
  else if 0xf0 ≤ c.val ∧ c.val ≤ 0xf4 then some (3, c.val &&& 0x07, 0x10000)
  else none

def strict : Bytes → Option Nat
  | [] => none
  | c :: l =>
    if c.val < 0x80 then some 1
    else
      match strictLead c with
      | none => none
      | some (need, cp, least) =>
        if l.length + 1 ≤ need then none
        else
          match continued need cp l with
          | none => none
          | some cp =>
            if cp < least ∨ 0x10ffff < cp ∨ 0xd800 ≤ cp ∧ cp ≤ 0xdfff then none else some (need + 1)

theorem decodeFirst_le (s : Bytes) : (decodeFirst s).2 ≤ s.length := by
  rcases s with _ | ⟨b, l⟩
  · exact le_rfl
  · have hone : 1 ≤ (b :: l).length := Nat.succ_le_succ (Nat.zero_le _)
    rw [decodeFirst]
    split_ifs
    · exact hone
    · rcases lead b with _ | ⟨need, value⟩
      · exact hone
      · dsimp only
        split_ifs with hn
        · exact hone
        · rcases continued need value l with _ | cp
          · exact hone
          · exact Nat.succ_le_succ (Nat.le_of_lt_succ (not_le.1 hn))

theorem decodeFirst_pos (h : s ≠ []) : 0 < (decodeFirst s).2 := by
  rcases s with _ | ⟨b, l⟩
  · exact absurd rfl h
  · rw [decodeFirst]
    split_ifs
    · exact Nat.one_pos
    · rcases lead b with _ | ⟨need, value⟩
      · exact Nat.one_pos
      · dsimp only
        split_ifs
        · exact Nat.one_pos
        · rcases continued need value l with _ | cp
          · exact Nat.one_pos
          · exact Nat.succ_pos _

theorem strict_pos (h : strict s = some n) : 0 < n ∧ n ≤ s.length := by
  rcases s with _ | ⟨c, l⟩
  · cases h
  · rw [strict] at h
    split_ifs at h
    · cases h
      exact ⟨Nat.one_pos, Nat.succ_le_succ (Nat.zero_le _)⟩
    · rcases hl : strictLead c with _ | ⟨need, cp, least⟩
      · rw [hl] at h
        cases h
      · rw [hl] at h
        dsimp only at h
        split_ifs at h with hn
        rcases hc : continued need cp l with _ | v
        · rw [hc] at h
          cases h
        · rw [hc] at h
          dsimp only at h
          split_ifs at h
          cases h
          rw [List.length_cons]
          omega

/-- The code points of a string, read one by one. -/
def codepoints (s : Bytes) : List Nat :=
  match s with
  | [] => []
  | b :: l => (decodeFirst (b :: l)).1 :: codepoints ((b :: l).drop (decodeFirst (b :: l)).2)
termination_by s.length
decreasing_by
  have := decodeFirst_pos (List.cons_ne_nil b l)
  rw [List.length_drop, List.length_cons]
  omega

/-- `utf8_first_invalid`, from `i` bytes on. -/
def firstInvalidFrom (i : Nat) (s : Bytes) : Nat :=
  match _h : strict s with
  | none => i
  | some n => firstInvalidFrom (i + n) (s.drop n)
termination_by s.length
decreasing_by
  obtain ⟨hpos, hle⟩ := strict_pos _h
  rw [List.length_drop]
  omega

def firstInvalid (s : Bytes) : Nat := firstInvalidFrom 0 s

/-! ## Bits -/

theorem lead_bits : ∀ b : Byte, (b.val &&& 0xe0 = 0xc0 ↔ 0xc0 ≤ b.val ∧ b.val < 0xe0) ∧
    (b.val &&& 0xf0 = 0xe0 ↔ 0xe0 ≤ b.val ∧ b.val < 0xf0) ∧ (b.val &&& 0xf8 = 0xf0 ↔ 0xf0 ≤ b.val ∧ b.val < 0xf8) ∧
    (b.val &&& 0xc0 = 0x80 ↔ 0x80 ≤ b.val ∧ b.val < 0xc0) := by
  decide +kernel

theorem and_low (x : Nat) : x &&& 0x1f = x % 32 ∧ x &&& 0x0f = x % 16 ∧ x &&& 0x07 = x % 8 ∧ x &&& 0x3f = x % 64 :=
  ⟨Nat.and_two_pow_sub_one_eq_mod x 5, Nat.and_two_pow_sub_one_eq_mod x 4, Nat.and_two_pow_sub_one_eq_mod x 3,
    Nat.and_two_pow_sub_one_eq_mod x 6⟩

theorem or_low {x : Nat} : (x < 32 → 0xc0 ||| x = 0xc0 + x) ∧ (x < 16 → 0xe0 ||| x = 0xe0 + x) ∧
    (x < 8 → 0xf0 ||| x = 0xf0 + x) ∧ (x < 64 → 0x80 ||| x = 0x80 + x) :=
  ⟨fun h => (Nat.two_pow_add_eq_or_of_lt (i := 5) h 6).symm, fun h => (Nat.two_pow_add_eq_or_of_lt (i := 4) h 14).symm,
    fun h => (Nat.two_pow_add_eq_or_of_lt (i := 3) h 30).symm, fun h => (Nat.two_pow_add_eq_or_of_lt (i := 6) h 2).symm⟩

theorem shift_six {v x : Nat} (h : x < 64) : v <<< 6 ||| x = v * 64 + x := by
  rw [Nat.shiftLeft_eq, Nat.mul_comm v, ← Nat.two_pow_add_eq_or_of_lt (i := 6) h v]

theorem encodeCodepoint_wide {cp : Nat} :
    (0x7f < cp → cp ≤ 0x7ff → encodeCodepoint cp = [byte (0xc0 + cp / 64), byte (0x80 + cp % 64)]) ∧
    (0x7ff < cp → cp ≤ 0xffff →
      encodeCodepoint cp = [byte (0xe0 + cp / 4096), byte (0x80 + cp / 64 % 64), byte (0x80 + cp % 64)]) ∧
    (0xffff < cp → cp ≤ 0x10ffff → encodeCodepoint cp =
      [byte (0xf0 + cp / 262144), byte (0x80 + cp / 4096 % 64), byte (0x80 + cp / 64 % 64),
        byte (0x80 + cp % 64)]) := by
  have hlow : ∀ x : Nat, 0x80 ||| (x &&& 0x3f) = 0x80 + x % 64 := fun x => by
    rw [(and_low x).2.2.2, or_low.2.2.2 (Nat.mod_lt _ (by decide))]
  refine ⟨fun h1 h2 => ?_, fun h1 h2 => ?_, fun h1 h2 => ?_⟩
  · rw [encodeCodepoint, if_neg (by omega), if_pos h2, hlow, Nat.shiftRight_eq_div_pow, or_low.1 (by omega)]
  · rw [encodeCodepoint, if_neg (by omega), if_neg (by omega), if_pos h2, hlow, hlow, Nat.shiftRight_eq_div_pow,
      Nat.shiftRight_eq_div_pow, or_low.2.1 (by omega)]
  · rw [encodeCodepoint, if_neg (by omega), if_neg (by omega), if_neg (by omega), hlow, hlow, hlow,
      Nat.shiftRight_eq_div_pow, Nat.shiftRight_eq_div_pow, Nat.shiftRight_eq_div_pow, or_low.2.2.1 (by omega)]

theorem encodeCodepoint_ascii (h : cp ≤ 0x7f) : encodeCodepoint cp = [byte cp] := if_pos h

theorem continued_cons {k value : Nat} {b : Byte} (h : 0x80 ≤ b.val ∧ b.val < 0xc0) :
    continued (k + 1) value (b :: l) = continued k (value * 64 + b.val % 64) l := by
  rw [continued, if_pos ((lead_bits b).2.2.2.2 h), (and_low b.val).2.2.2, shift_six (Nat.mod_lt _ (by decide))]

theorem continued_succ {k value : Nat} (h : continued (k + 1) value l = some cp) :
    ∃ b m, l = b :: m ∧ (0x80 ≤ b.val ∧ b.val < 0xc0) ∧ continued k (value * 64 + b.val % 64) m = some cp := by
  rcases l with _ | ⟨b, m⟩
  · cases h
  · have hb : 0x80 ≤ b.val ∧ b.val < 0xc0 := by
      rw [continued] at h
      split_ifs at h with hb
      exact (lead_bits b).2.2.2.1 hb
    exact ⟨b, m, rfl, hb, by rw [← continued_cons hb, h]⟩

/-! ## A sequence at the front -/

theorem continued_encoded (v x y z : Nat) (rest : Bytes) (hx : x < 64) (hy : y < 64) (hz : z < 64) :
    continued 1 v (byte (0x80 + x) :: rest) = some (v * 64 + x) ∧
    continued 2 v (byte (0x80 + y) :: byte (0x80 + x) :: rest) = some ((v * 64 + y) * 64 + x) ∧
    continued 3 v (byte (0x80 + z) :: byte (0x80 + y) :: byte (0x80 + x) :: rest) =
      some (((v * 64 + z) * 64 + y) * 64 + x) := by
  have hcons : ∀ {k v u : Nat} {l : Bytes}, u < 64 →
      continued (k + 1) v (byte (0x80 + u) :: l) = continued k (v * 64 + u) l := by
    intro k v u l hu
    have hv : (byte (0x80 + u)).val = 0x80 + u := byte_of_lt (by omega)
    rw [continued_cons (by omega), hv]
    congr 2
    omega
  refine ⟨?_, ?_, ?_⟩
  · rw [hcons hx, continued]
  · rw [hcons hy, hcons hx, continued]
  · rw [hcons hz, hcons hy, hcons hx, continued]

/-- A code point's bytes where they are more than one: a lead byte, and the continuation bytes it asks for. -/
structure Wide (cp : Nat) (b : Byte) (tail : Bytes) (v least : Nat) : Prop where
  bytes : encodeCodepoint cp = b :: tail
  high : 0x80 ≤ b.val
  lead : lead b = some (tail.length, v)
  strict : strictLead b = some (tail.length, v, least)
  least_le : least ≤ cp
  back : ∀ rest, continued tail.length v (tail ++ rest) = some cp

theorem wide_two (h1 : 0x7f < cp) (h2 : cp ≤ 0x7ff) :
    Wide cp (byte (0xc0 + cp / 64)) [byte (0x80 + cp % 64)] (cp / 64) 0x80 := by
  have hb : (byte (0xc0 + cp / 64)).val = 0xc0 + cp / 64 := byte_of_lt (by omega)
  have hv : (0xc0 + cp / 64) % 32 = cp / 64 := by omega
  refine ⟨encodeCodepoint_wide.1 h1 h2, by omega, ?_, ?_, h1, fun rest => ?_⟩
  · rw [lead, if_pos ((lead_bits _).1.2 (by omega)), (and_low _).1, hb, hv]
    rfl
  · rw [strictLead, if_pos (by omega), (and_low _).1, hb, hv]
    rfl
  · refine ((continued_encoded _ (cp % 64) 0 0 rest (by omega) (by omega) (by omega)).1).trans ?_
    congr 1
    omega

theorem wide_three (h1 : 0x7ff < cp) (h2 : cp ≤ 0xffff) :
    Wide cp (byte (0xe0 + cp / 4096)) [byte (0x80 + cp / 64 % 64), byte (0x80 + cp % 64)] (cp / 4096) 0x800 := by
  have hb : (byte (0xe0 + cp / 4096)).val = 0xe0 + cp / 4096 := byte_of_lt (by omega)
  have hv : (0xe0 + cp / 4096) % 16 = cp / 4096 := by omega
  refine ⟨encodeCodepoint_wide.2.1 h1 h2, by omega, ?_, ?_, h1, fun rest => ?_⟩
  · have hnot : ¬ (byte (0xe0 + cp / 4096)).val &&& 0xe0 = 0xc0 := fun h => by
      have := (lead_bits _).1.1 h
      omega
    rw [lead, if_neg hnot, if_pos ((lead_bits _).2.1.2 (by omega)), (and_low _).2.1, hb, hv]
    rfl
  · rw [strictLead, if_neg (by omega), if_pos ((lead_bits _).2.1.2 (by omega)), (and_low _).2.1, hb, hv]
    rfl
  · refine ((continued_encoded _ (cp % 64) (cp / 64 % 64) 0 rest (by omega) (by omega) (by omega)).2.1).trans ?_
    congr 1
    omega

theorem wide_four (h1 : 0xffff < cp) (h2 : cp ≤ 0x10ffff) : Wide cp (byte (0xf0 + cp / 262144))
      [byte (0x80 + cp / 4096 % 64), byte (0x80 + cp / 64 % 64), byte (0x80 + cp % 64)] (cp / 262144) 0x10000 := by
  have hb : (byte (0xf0 + cp / 262144)).val = 0xf0 + cp / 262144 := byte_of_lt (by omega)
  have hv : (0xf0 + cp / 262144) % 8 = cp / 262144 := by omega
  have hnot : ¬ (byte (0xf0 + cp / 262144)).val &&& 0xf0 = 0xe0 := fun h => by
    have := (lead_bits _).2.1.1 h
    omega
  refine ⟨encodeCodepoint_wide.2.2 h1 h2, by omega, ?_, ?_, h1, fun rest => ?_⟩
  · have hnot' : ¬ (byte (0xf0 + cp / 262144)).val &&& 0xe0 = 0xc0 := fun h => by
      have := (lead_bits _).1.1 h
      omega
    rw [lead, if_neg hnot', if_neg hnot, if_pos ((lead_bits _).2.2.1.2 (by omega)), (and_low _).2.2.1, hb, hv]
    rfl
  · rw [strictLead, if_neg (by omega), if_neg hnot, if_pos (by omega), (and_low _).2.2.1, hb, hv]
    rfl
  · refine ((continued_encoded _ (cp % 64) (cp / 64 % 64) (cp / 4096 % 64) rest (by omega) (by omega)
      (by omega)).2.2).trans ?_
    congr 1
    omega

theorem wide_of (h : 0x7f < cp) (hmax : cp ≤ 0x10ffff) : ∃ b tail v least, Wide cp b tail v least := by
  by_cases h2 : cp ≤ 0x7ff
  · exact ⟨_, _, _, _, wide_two h h2⟩
  by_cases h3 : cp ≤ 0xffff
  · exact ⟨_, _, _, _, wide_three (not_le.1 h2) h3⟩
  · exact ⟨_, _, _, _, wide_four (not_le.1 h3) hmax⟩

/-- **A scalar value's bytes decode to it**, whatever follows. -/
theorem decodeFirst_encode (c : Scalar) (rest : Bytes) :
    decodeFirst (encodeCodepoint c.cp ++ rest) = (c.cp, (encodeCodepoint c.cp).length) := by
  by_cases h1 : c.cp ≤ 0x7f
  · have hb : (byte c.cp).val = c.cp := byte_of_lt (by omega)
    rw [encodeCodepoint_ascii h1, List.cons_append, decodeFirst, if_pos (by omega), hb]
    rfl
  · obtain ⟨b, tail, v, least, w⟩ := wide_of (not_le.1 h1) c.valid.1
    rw [w.bytes, List.cons_append, decodeFirst, if_neg (not_lt.2 w.high), w.lead]
    dsimp only
    rw [if_neg (by rw [List.length_append]; omega), w.back rest]
    rfl

theorem strict_encode (c : Scalar) (rest : Bytes) :
    strict (encodeCodepoint c.cp ++ rest) = some (encodeCodepoint c.cp).length := by
  by_cases h1 : c.cp ≤ 0x7f
  · have hb : (byte c.cp).val = c.cp := byte_of_lt (by omega)
    rw [encodeCodepoint_ascii h1, List.cons_append, strict, if_pos (by omega)]
    rfl
  · obtain ⟨b, tail, v, least, w⟩ := wide_of (not_le.1 h1) c.valid.1
    have hvalid := c.valid
    have hleast := w.least_le
    rw [w.bytes, List.cons_append, strict, if_neg (not_lt.2 w.high), w.strict]
    dsimp only
    rw [if_neg (by rw [List.length_append]; omega), w.back rest]
    dsimp only
    rw [if_neg (by omega)]
    rfl

theorem byte_eq {b : Byte} (h : b.val = n) : b = byte n := by rw [← h, byte_of_val]

theorem strict_codepoint (h : strict s = some n) :
    ∃ (cp : Nat) (rest : Bytes), (cp ≤ 0x10ffff ∧ ¬ (0xd800 ≤ cp ∧ cp ≤ 0xdfff)) ∧ s = encodeCodepoint cp ++ rest ∧
      n = (encodeCodepoint cp).length := by
  rcases s with _ | ⟨b, l⟩
  · cases h
  rw [strict] at h
  split_ifs at h with hascii
  · cases h
    have henc : encodeCodepoint b.val = [b] := by rw [encodeCodepoint_ascii (Nat.le_of_lt_succ hascii), byte_of_val]
    exact ⟨b.val, l, by omega, by rw [henc]; rfl, by rw [henc]; rfl⟩
  rcases hlead : strictLead b with _ | ⟨need, v, least⟩
  · rw [hlead] at h
    cases h
  rw [hlead] at h
  dsimp only at h
  split_ifs at h
  rcases hc : continued need v l with _ | cp
  · rw [hc] at h
    cases h
  rw [hc] at h
  dsimp only at h
  split_ifs at h with hbad
  cases h
  rw [strictLead] at hlead
  split_ifs at hlead with h2 h3 h4
  · cases hlead
    rw [(and_low _).1] at hc
    obtain ⟨x, m, rfl, hx, hc⟩ := continued_succ hc
    have hcp : b.val % 32 * 64 + x.val % 64 = cp := Option.some.inj hc
    have henc := (@encodeCodepoint_wide cp).1 (by omega) (by omega)
    rw [← byte_eq (b := b) (n := 0xc0 + cp / 64) (by omega),
      ← byte_eq (b := x) (n := 0x80 + cp % 64) (by omega)] at henc
    exact ⟨cp, m, by omega, by rw [henc]; rfl, by rw [henc]; rfl⟩
  · cases hlead
    have hb := (lead_bits _).2.1.1 h3
    rw [(and_low _).2.1] at hc
    obtain ⟨x, m, rfl, hx, hc⟩ := continued_succ hc
    obtain ⟨y, m, rfl, hy, hc⟩ := continued_succ hc
    have hcp : (b.val % 16 * 64 + x.val % 64) * 64 + y.val % 64 = cp := Option.some.inj hc
    have henc := (@encodeCodepoint_wide cp).2.1 (by omega) (by omega)
    rw [← byte_eq (b := b) (n := 0xe0 + cp / 4096) (by omega), ← byte_eq (b := x) (n := 0x80 + cp / 64 % 64) (by omega),
      ← byte_eq (b := y) (n := 0x80 + cp % 64) (by omega)] at henc
    exact ⟨cp, m, by omega, by rw [henc]; rfl, by rw [henc]; rfl⟩
  · cases hlead
    rw [(and_low _).2.2.1] at hc
    obtain ⟨x, m, rfl, hx, hc⟩ := continued_succ hc
    obtain ⟨y, m, rfl, hy, hc⟩ := continued_succ hc
    obtain ⟨z, m, rfl, hz, hc⟩ := continued_succ hc
    have hcp : ((b.val % 8 * 64 + x.val % 64) * 64 + y.val % 64) * 64 + z.val % 64 = cp := Option.some.inj hc
    have henc := (@encodeCodepoint_wide cp).2.2 (by omega) (by omega)
    rw [← byte_eq (b := b) (n := 0xf0 + cp / 262144) (by omega),
      ← byte_eq (b := x) (n := 0x80 + cp / 4096 % 64) (by omega),
      ← byte_eq (b := y) (n := 0x80 + cp / 64 % 64) (by omega),
      ← byte_eq (b := z) (n := 0x80 + cp % 64) (by omega)] at henc
    exact ⟨cp, m, by omega, by rw [henc]; rfl, by rw [henc]; rfl⟩

/-- **What the strict check goes past is a scalar value's bytes.** -/
theorem strict_eq (h : strict s = some n) :
    ∃ (c : Scalar) (rest : Bytes), s = encodeCodepoint c.cp ++ rest ∧ n = (encodeCodepoint c.cp).length := by
  obtain ⟨cp, rest, hvalid, hs, hn⟩ := strict_codepoint h
  exact ⟨⟨cp, hvalid⟩, rest, hs, hn⟩

/-! ## A whole string -/

theorem encodeCodepoint_pos (cp : Nat) : 0 < (encodeCodepoint cp).length := by
  rw [encodeCodepoint]
  split_ifs <;> exact Nat.succ_pos _

theorem codepoints_nil : codepoints [] = [] := by
  rw [codepoints]

theorem codepoints_encode : ∀ l : List Scalar, codepoints (encode l) = l.map Scalar.cp
  | [] => codepoints_nil
  | c :: l => by
    have henc : encode (c :: l) = encodeCodepoint c.cp ++ encode l := List.flatMap_cons
    obtain ⟨b, m, hm⟩ : ∃ b m, encodeCodepoint c.cp ++ encode l = b :: m := by
      rcases h : encodeCodepoint c.cp with _ | ⟨b, m⟩
      · have := encodeCodepoint_pos c.cp
        rw [h] at this
        cases this
      · exact ⟨b, m ++ encode l, rfl⟩
    have hread := decodeFirst_encode c (encode l)
    rw [henc, hm, codepoints, ← hm, hread, List.drop_left, codepoints_encode l, List.map_cons]

theorem encode_cons (c : Scalar) (l : List Scalar) : encode (c :: l) = encodeCodepoint c.cp ++ encode l :=
  List.flatMap_cons

theorem firstInvalidFrom_none {i : Nat} (h : strict s = none) : firstInvalidFrom i s = i := by
  rw [firstInvalidFrom]
  split
  · rfl
  · rename_i hsome
    rw [h] at hsome
    cases hsome

theorem firstInvalidFrom_some {i : Nat} (h : strict s = some n) :
    firstInvalidFrom i s = firstInvalidFrom (i + n) (s.drop n) := by
  rw [firstInvalidFrom]
  split
  · rename_i hnone
    rw [h] at hnone
    cases hnone
  · rename_i m hsome
    rw [h] at hsome
    cases hsome
    rfl

theorem firstInvalidFrom_encode (rest : Bytes) : ∀ (l : List Scalar) (i : Nat),
    firstInvalidFrom i (encode l ++ rest) = firstInvalidFrom (i + (encode l).length) rest
  | [], i => rfl
  | c :: l, i => by
    have hstrict := strict_encode c (encode l ++ rest)
    rw [encode_cons, List.append_assoc, firstInvalidFrom_some hstrict, List.drop_left, firstInvalidFrom_encode rest l,
      List.length_append, Nat.add_assoc]

theorem scalars_then (s : Bytes) : ∃ (l : List Scalar) (rest : Bytes), s = encode l ++ rest ∧ strict rest = none := by
  rcases h : strict s with _ | n
  · exact ⟨[], s, rfl, h⟩
  · obtain ⟨c, tail, hs, -⟩ := strict_eq h
    obtain ⟨l, rest, htail, hstop⟩ := scalars_then tail
    exact ⟨c :: l, rest, by rw [hs, htail, encode_cons, List.append_assoc], hstop⟩
termination_by s.length
decreasing_by
  have := encodeCodepoint_pos c.cp
  rw [hs, List.length_append]
  omega

theorem firstInvalid_stop {l : List Scalar} {rest : Bytes} (h : strict rest = none) :
    firstInvalid (encode l ++ rest) = (encode l).length := by
  rw [firstInvalid, firstInvalidFrom_encode, firstInvalidFrom_none h, Nat.zero_add]

/-- A string is the bytes of scalar values, one after another. -/
def WellFormed (s : Bytes) : Prop := ∃ l : List Scalar, s = encode l

theorem length_le_firstInvalid (hn : n ≤ s.length) (h : WellFormed (s.take n)) : n ≤ firstInvalid s := by
  obtain ⟨l, hl⟩ := h
  have hs : s = encode l ++ s.drop n := by rw [← hl, List.take_append_drop]
  obtain ⟨m, rest, hrest, hstop⟩ := scalars_then (s.drop n)
  have hlen : (encode l).length = n := by rw [← hl, List.length_take, Nat.min_eq_left hn]
  rw [hs, hrest, firstInvalid, firstInvalidFrom_encode, firstInvalidFrom_encode, firstInvalidFrom_none hstop, hlen]
  omega

/-- **The strict check is exact**: it answers the length just for the strings that are scalar values' bytes one after
another, else the longest prefix that is; and on those strings the lenient reader gives the values one by one. -/
theorem validation_exact (s : Bytes) :
    (firstInvalid s = s.length ↔ WellFormed s) ∧
    IsGreatest {n | n ≤ s.length ∧ WellFormed (s.take n)} (firstInvalid s) ∧
    ∀ l : List Scalar, codepoints (encode l) = l.map Scalar.cp := by
  obtain ⟨l, rest, hs, hstop⟩ := scalars_then s
  have hinv : firstInvalid s = (encode l).length := by rw [hs, firstInvalid_stop hstop]
  have htake : s.take (firstInvalid s) = encode l := by rw [hinv, hs, List.take_left]
  have hle : firstInvalid s ≤ s.length := by
    rw [hinv, hs, List.length_append]
    exact Nat.le_add_right _ _
  refine ⟨⟨fun h => ?_, fun h => ?_⟩, ⟨⟨hle, l, htake⟩, ?_⟩, codepoints_encode⟩
  · rw [h, List.take_length] at htake
    exact ⟨l, htake⟩
  · rw [← List.take_length (l := s)] at h
    exact le_antisymm hle (length_le_firstInvalid le_rfl h)
  · rintro n ⟨hn, hw⟩
    exact length_le_firstInvalid hn hw

end Utf8
end Gbasic
