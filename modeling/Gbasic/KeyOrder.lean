import Mathlib.Order.CountableDenseLinearOrder
import Mathlib.Data.Prod.Lex
import Mathlib.Data.Rat.Cast.Order
import Mathlib.Algebra.Order.Field.Rat
import Mathlib.Tactic.Linarith
import Mathlib.Tactic.Positivity
import Mathlib.Tactic.FieldSimp
import Gbasic.Key
/-!
# KeyOrder — key order is the values' order

`Value` is a value with an index order, and `serialize` the bytes an encoder is handed.  `Value.compare` is the order of
the language: numbers by exact value with a place for NaN, strings by bytes, datetimes field by field, absence last; two
kinds the language refuses to compare have the order of their tags.  A value's component settles against any other's
written with the same flags as the values compare, so composite keys compare as tuples do.
-/
namespace Gbasic
namespace Key

open List (cons_append append_assoc append_nil)

variable {m : Nat} {e : Int}

/-! ## Values -/

structure Text where
  bytes : Bytes
  short : bytes.length < 2 ^ 64

inductive Num where
  | exact (v : BitVec 64)
  | inexact (bits : BitVec 64)

structure Money where
  units : BitVec 64
  exponent : Byte
  numeric : BitVec 16
  alpha : Bytes
  short : alpha.length ≤ 7

structure DateTime where
  year : BitVec 32
  month : BitVec 32
  day : BitVec 32
  hour : BitVec 32
  minute : BitVec 32
  second : BitVec 32
  timeOnly : Bool
  precision : Nat
  named : 1 ≤ precision ∧ precision ≤ 6

inductive Value where
  | null
  | unknown
  | bool (b : Bool)
  | number (n : Num)
  | string (s : Text)
  | money (m : Money)
  | datetime (d : DateTime)

variable {a b : Value}

def Num.bytes : Num → Bytes
  | .exact v => byte 1 :: lePut 8 v.toNat
  | .inexact bits => byte 0 :: lePut 8 bits.toNat

def Money.bytes (m : Money) : Bytes :=
  lePut 8 m.units.toNat ++ m.exponent :: (lePut 2 m.numeric.toNat ++ byte m.alpha.length :: m.alpha)

def DateTime.fields (d : DateTime) : List (BitVec 32) := [d.year, d.month, d.day, d.hour, d.minute, d.second]

def DateTime.bytes (d : DateTime) : Bytes :=
  d.fields.flatMap (fun f => lePut 4 f.toNat) ++ [byte d.timeOnly.toNat, byte d.precision]

/-- `serialize_value`, of these kinds. -/
def serialize : Value → Bytes
  | .null => [byte SER_NULL]
  | .unknown => [byte SER_UNKNOWN]
  | .bool b => [byte SER_BOOL, byte b.toNat]
  | .number n => byte SER_NUMBER :: n.bytes
  | .string s => byte SER_STRING :: (uleb s.bytes.length ++ s.bytes)
  | .money m => byte SER_MONEY :: m.bytes
  | .datetime d => byte SER_DATETIME :: d.bytes

/-! ## The order of the language -/

def doubleParts (bits : Nat) : Bool × Nat × Int :=
  let negative := decide (bits / 2 ^ 63 = 1)
  let field : Nat := bits / 2 ^ 52 % 2 ^ 11
  let frac := bits % 2 ^ 52
  if field = 0 then (negative, frac, -1074) else (negative, frac + 2 ^ 52, (field : Int) - 1075)

def signed (p : Bool × Nat × Int) : ℚ := (if p.1 then -1 else 1) * (p.2.1 * 2 ^ p.2.2)

theorem signed_false (m : Nat) (e : Int) : signed (false, m, e) = m * 2 ^ e := one_mul _

theorem signed_true (m : Nat) (e : Int) : signed (true, m, e) = -(m * 2 ^ e) := neg_one_mul _

/-- A number's place: minus infinity, its exact value, plus infinity, NaN. -/
def Num.place : Num → ℕ ×ₗ ℚ
  | .exact v => toLex (1, (v.toInt : ℚ))
  | .inexact bits =>
    if bits.toNat / 2 ^ 52 % 2 ^ 11 = 0x7ff then
      if bits.toNat % 2 ^ 52 ≠ 0 then toLex (3, 0)
      else if bits.toNat / 2 ^ 63 = 1 then toLex (0, 0) else toLex (2, 0)
    else toLex (1, signed (doubleParts bits.toNat))

/-- A time only comes first by that; then the date, unless it is a time only, the time and the precision. -/
def DateTime.compare (a b : DateTime) : Ordering :=
  (cmp a.timeOnly.toNat b.timeOnly.toNat).then
    ((if a.timeOnly then .eq
      else (cmp a.year.toInt b.year.toInt).then ((cmp a.month.toInt b.month.toInt).then
        (cmp a.day.toInt b.day.toInt))).then
      ((cmp a.hour.toInt b.hour.toInt).then ((cmp a.minute.toInt b.minute.toInt).then
        ((cmp a.second.toInt b.second.toInt).then (cmp a.precision b.precision)))))

def Value.rank : Value → Nat
  | .bool _ => 0
  | .number _ => 1
  | .string _ => 2
  | .money _ => 3
  | .datetime _ => 4
  | .null => 5
  | .unknown => 5

def Value.compare : Value → Value → Ordering
  | .bool a, .bool b => cmp a.toNat b.toNat
  | .number a, .number b => cmp a.place b.place
  | .string a, .string b => memcmp a.bytes b.bytes
  | .money a, .money b => cmp a.units.toInt b.units.toInt
  | .datetime a, .datetime b => a.compare b
  | a, b => cmp a.rank b.rank

/-- Two amounts of one currency; any two values that are not both money. -/
def Value.OneCurrency : Value → Value → Prop
  | .money a, .money b => a.exponent = b.exponent ∧ a.numeric = b.numeric ∧ a.alpha = b.alpha
  | _, _ => True

/-- Tuples, component by component, each in its direction. -/
def compareTuples : List KeyFlags → List Value → List Value → Ordering
  | fl :: fls, a :: as, b :: bs =>
    (if fl.desc then (a.compare b).swap else a.compare b).then (compareTuples fls as bs)
  | _, _, _ => .eq

/-- A composite key: each value's component appended in turn, if every one has one. -/
def tupleKey : List KeyFlags → List Value → Bytes → Option Bytes
  | fl :: fls, v :: vs, key =>
    match keyAppend key (serialize v) fl with
    | (.ok, key, _) => tupleKey fls vs key
    | _ => none
  | _, _, key => some key

/-! ## Numbers -/

theorem topBit_spec {m : Nat} (hm : 0 < m) : ∀ t, m < 2 ^ (t + 1) →
    topBit m t ≤ t ∧ 2 ^ topBit m t ≤ m ∧ m < 2 ^ (topBit m t + 1)
  | 0, h => ⟨Nat.le_refl 0, hm, h⟩
  | t + 1, h => by
    rw [topBit]
    by_cases hd : m / 2 ^ (t + 1) = 0
    · rw [if_pos hd]
      have hlt : m < 2 ^ (t + 1) := by
        rcases Nat.div_eq_zero_iff.1 hd with h0 | h0
        · exact absurd h0 (by positivity)
        · exact h0
      obtain ⟨hle, hlow, hhigh⟩ := topBit_spec hm t hlt
      exact ⟨by omega, hlow, hhigh⟩
    · rw [if_neg hd]
      refine ⟨Nat.le_refl _, ?_, h⟩
      by_contra hcon
      exact hd (Nat.div_eq_of_lt (Nat.lt_of_not_le hcon))

def fractionOf (m : Nat) : Nat := m * 2 ^ (63 - topBit m 63) % 2 ^ 64 * 2 % 2 ^ 64

theorem fractionOf_spec (hm : 0 < m) (h : m < 2 ^ 64) :
    fractionOf m < 2 ^ 64 ∧ fractionOf m + 2 ^ 64 = m * 2 ^ (64 - topBit m 63) := by
  obtain ⟨hle, hlow, hhigh⟩ := topBit_spec hm 63 h
  have hpow : 2 ^ topBit m 63 * 2 ^ (63 - topBit m 63) = 2 ^ 63 := by
    rw [← pow_add]
    congr 1
    omega
  have hpow' : 2 ^ (topBit m 63 + 1) * 2 ^ (63 - topBit m 63) = 2 ^ 64 := by
    rw [← pow_add]
    congr 1
    omega
  have hge : 2 ^ 63 ≤ m * 2 ^ (63 - topBit m 63) := by
    rw [← hpow]
    exact Nat.mul_le_mul_right _ hlow
  have hlt : m * 2 ^ (63 - topBit m 63) < 2 ^ 64 := by
    rw [← hpow']
    exact Nat.mul_lt_mul_of_pos_right hhigh (by positivity)
  have hstep : m * 2 ^ (64 - topBit m 63) = m * 2 ^ (63 - topBit m 63) * 2 := by
    rw [show 64 - topBit m 63 = 63 - topBit m 63 + 1 by omega, pow_succ, Nat.mul_assoc]
  rw [fractionOf, hstep]
  omega

def biasedOf (m : Nat) (e : Int) : Nat := (topBit m 63 + e + EXPONENT_BIAS).toNat

/-- A magnitude an encoder meets: the significand fits, and the exponent is a double's or an integer's. -/
structure Mag (m : Nat) (e : Int) : Prop where
  pos : 0 < m
  fits : m < 2 ^ 64
  low : -1074 ≤ e
  high : e ≤ 1000

theorem Mag.biased (h : Mag m e) :
    26 ≤ biasedOf m e ∧ biasedOf m e < 2 ^ 16 ∧ (biasedOf m e : Int) = topBit m 63 + e + EXPONENT_BIAS := by
  have hle := (topBit_spec h.pos 63 h.fits).1
  have hlow := h.low
  have hhigh := h.high
  unfold biasedOf EXPONENT_BIAS
  omega

theorem putMagnitude_eq (h : Mag m e) (negative : Bool) :
    putMagnitude negative m e = byte (if negative then KEY_NEGATIVE else KEY_POSITIVE) ::
      (bePut 2 (if negative then 0xffff - biasedOf m e else biasedOf m e) ++
        bePut 8 (if negative then 2 ^ 64 - 1 - fractionOf m else fractionOf m)) := by
  obtain ⟨hlow, hhigh, hb⟩ := h.biased
  have hmod : ((topBit m 63 + e + EXPONENT_BIAS) % (2 ^ 64 : Int)).toNat = biasedOf m e := by
    rw [← hb, Int.emod_eq_of_lt (by omega) (by omega), Int.toNat_natCast]
  have hinv : 0xffff - biasedOf m e % 0x10000 = 0xffff - biasedOf m e := by
    rw [Nat.mod_eq_of_lt (show biasedOf m e < 0x10000 from hhigh)]
  unfold putMagnitude
  dsimp only
  rw [hmod, hinv]
  rfl

theorem Mag.scaled (h : Mag m e) :
    ((m : ℚ) * 2 ^ e) * 2 ^ (1138 : ℕ) = (((fractionOf m + 2 ^ 64) * 2 ^ (biasedOf m e - 26) : ℕ) : ℚ) := by
  obtain ⟨hlow, hhigh, hb⟩ := h.biased
  have hle := (topBit_spec h.pos 63 h.fits).1
  have hbe : ((biasedOf m e - 26 : ℕ) : Int) = topBit m 63 + e + 1074 := by
    unfold EXPONENT_BIAS at hb
    omega
  have htop : ((64 - topBit m 63 : ℕ) : Int) = 64 - topBit m 63 := by omega
  rw [(fractionOf_spec h.pos h.fits).2]
  push_cast
  rw [mul_assoc, mul_assoc]
  congr 1
  rw [← zpow_natCast, ← zpow_natCast, ← zpow_natCast, ← zpow_add₀ (by norm_num), ← zpow_add₀ (by norm_num), hbe, htop]
  congr 1
  push_cast
  ring

theorem cmp_normal {F F' c c' : Nat} (hF : F < 2 ^ 64) (hF' : F' < 2 ^ 64) :
    cmp ((F + 2 ^ 64) * 2 ^ c) ((F' + 2 ^ 64) * 2 ^ c') = (cmp c c').then (cmp F F') := by
  have hless : ∀ {F F' c c' : Nat}, F < 2 ^ 64 → c < c' → (F + 2 ^ 64) * 2 ^ c < (F' + 2 ^ 64) * 2 ^ c' := by
    intro F F' c c' hF hc
    have hpow : 2 ^ c * 2 ≤ 2 ^ c' := by
      rw [← pow_succ]
      exact Nat.pow_le_pow_right (by decide) hc
    calc (F + 2 ^ 64) * 2 ^ c < 2 ^ 64 * (2 ^ c * 2) := by
          have : 0 < 2 ^ c := by positivity
          nlinarith
      _ ≤ 2 ^ 64 * 2 ^ c' := Nat.mul_le_mul_left _ hpow
      _ ≤ (F' + 2 ^ 64) * 2 ^ c' := Nat.mul_le_mul_right _ (Nat.le_add_left _ _)
  rcases lt_trichotomy c c' with hc | hc | hc
  · rw [(cmp_eq_lt_iff c c').2 hc, (cmp_eq_lt_iff _ _).2 (hless hF hc)]
    rfl
  · subst hc
    rw [cmp_same]
    have hmono : StrictMono (fun F : Nat => (F + 2 ^ 64) * 2 ^ c) := by
      intro a b hab
      exact Nat.mul_lt_mul_of_pos_right (by omega) (by positivity)
    exact hmono.cmp_map_eq F F'
  · rw [(cmp_eq_gt_iff c c').2 hc, (cmp_eq_gt_iff _ _).2 (hless hF' hc)]
    rfl

theorem Mag.cmp_eq {m' : Nat} {e' : Int} (h : Mag m e) (h' : Mag m' e') : cmp ((m : ℚ) * 2 ^ e) ((m' : ℚ) * 2 ^ e') =
      (cmp (biasedOf m e) (biasedOf m' e')).then (cmp (fractionOf m) (fractionOf m')) := by
  have hscale : StrictMono (fun q : ℚ => q * 2 ^ (1138 : ℕ)) := fun a b hab =>
    mul_lt_mul_of_pos_right hab (by positivity)
  have hcast : StrictMono (fun n : ℕ => (n : ℚ)) := Nat.strictMono_cast
  have hb := h.biased.1
  have hb' := h'.biased.1
  rw [← hscale.cmp_map_eq, h.scaled, h'.scaled, hcast.cmp_map_eq,
    cmp_normal (fractionOf_spec h.pos h.fits).1 (fractionOf_spec h'.pos h'.fits).1]
  congr 1
  rcases lt_trichotomy (biasedOf m e) (biasedOf m' e') with hlt | heq | hgt
  · rw [(cmp_eq_lt_iff _ _).2 hlt, (cmp_eq_lt_iff (_ - 26) _).2 (by omega)]
  · rw [heq, cmp_same, cmp_same]
  · rw [(cmp_eq_gt_iff _ _).2 hgt, (cmp_eq_gt_iff (_ - 26) _).2 (by omega)]

theorem cmp_sub_rev {a b n : Nat} (ha : a ≤ n) (hb : b ≤ n) : cmp (n - a) (n - b) = (cmp a b).swap := by
  rcases lt_trichotomy a b with h | h | h
  · rw [(cmp_eq_lt_iff a b).2 h, (cmp_eq_gt_iff _ _).2 (by omega)]
    rfl
  · rw [h, cmp_same, cmp_same]
    rfl
  · rw [(cmp_eq_gt_iff a b).2 h, (cmp_eq_lt_iff _ _).2 (by omega)]
    rfl

theorem cmp_neg_rev (x y : ℚ) : cmp (-x) (-y) = (cmp x y).swap := by
  rcases lt_trichotomy x y with h | h | h
  · rw [(cmp_eq_lt_iff x y).2 h, (cmp_eq_gt_iff _ _).2 (neg_lt_neg h)]
    rfl
  · rw [h, cmp_same, cmp_same]
    rfl
  · rw [(cmp_eq_gt_iff x y).2 h, (cmp_eq_lt_iff _ _).2 (neg_lt_neg h)]
    rfl

/-- **Magnitudes of one sign settle as the numbers compare.** -/
theorem settle_putMagnitude {m' : Nat} {e' : Int} (h : Mag m e) (h' : Mag m' e') (negative : Bool) :
    settle (putMagnitude negative m e) (putMagnitude negative m' e') =
      some (cmp (signed (negative, m, e)) (signed (negative, m', e'))) := by
  obtain ⟨-, hb, -⟩ := h.biased
  obtain ⟨-, hb', -⟩ := h'.biased
  have hf := (fractionOf_spec h.pos h.fits).1
  have hf' := (fractionOf_spec h'.pos h'.fits).1
  rw [putMagnitude_eq h, putMagnitude_eq h', settle_cons_same]
  cases negative with
  | false =>
    simp only [Bool.false_eq_true, if_false]
    rw [settle_append (settle_bePut 2 _ _ hb hb') (settle_bePut 8 _ _ hf hf'), ← h.cmp_eq h',
      signed_false, signed_false]
  | true =>
    simp only [if_true]
    rw [settle_append (settle_bePut 2 _ _ (by norm_num; omega) (by norm_num; omega))
      (settle_bePut 8 _ _ (by norm_num; omega) (by norm_num; omega)), cmp_sub_rev (by omega) (by omega),
      cmp_sub_rev (by omega) (by omega), ← Ordering.swap_then, ← h.cmp_eq h', signed_true, signed_true, cmp_neg_rev]

inductive Shape where
  | mag (negative : Bool) (m : Nat) (e : Int)
  | negInf
  | zero
  | posInf
  | nan

namespace Shape

variable {s : Shape}

def tag : Shape → Nat
  | mag negative _ _ => if negative then KEY_NEGATIVE else KEY_POSITIVE
  | negInf => KEY_NEG_INF
  | zero => KEY_ZERO
  | posInf => KEY_POS_INF
  | nan => KEY_NAN

def code : Shape → Bytes
  | mag negative m e => putMagnitude negative m e
  | s => [byte s.tag]

def value : Shape → ℚ
  | mag negative m e => signed (negative, m, e)
  | _ => 0

/-- The infinities and NaN each on their side of the finite numbers. -/
def group (t : Nat) : Nat := if t ≤ KEY_NEG_INF then 0 else if t ≤ KEY_POSITIVE then 1 else if t ≤ KEY_POS_INF then 2
    else 3

def place (s : Shape) : ℕ ×ₗ ℚ := toLex (group s.tag, s.value)

def Ok : Shape → Prop
  | mag _ m e => Mag m e
  | _ => True

theorem code_cons (h : s.Ok) : ∃ l, s.code = byte s.tag :: l := by
  cases s with
  | mag negative m e => exact ⟨_, putMagnitude_eq h negative⟩
  | negInf | zero | posInf | nan => exact ⟨[], rfl⟩

theorem tag_range (s : Shape) : KEY_NEG_INF ≤ s.tag ∧ s.tag ≤ KEY_NAN := by
  have hneg : KEY_NEG_INF ≤ KEY_NEGATIVE ∧ KEY_NEGATIVE ≤ KEY_NAN := by decide
  have hpos : KEY_NEG_INF ≤ KEY_POSITIVE ∧ KEY_POSITIVE ≤ KEY_NAN := by decide
  rcases s with ⟨_ | _, _, _⟩ | _ | _ | _ | _
  · exact hpos
  · exact hneg
  all_goals exact ⟨by decide, by decide⟩

theorem value_sign (h : s.Ok) : (s.tag = KEY_NEGATIVE → s.value < 0) ∧
    (s.tag = KEY_POSITIVE → 0 < s.value) ∧ (s.tag = KEY_ZERO → s.value = 0) := by
  cases s with
  | mag negative m e =>
    have hm : (0 : ℚ) < m := by exact_mod_cast Mag.pos h
    have hpos : (0 : ℚ) < m * 2 ^ e := mul_pos hm (zpow_pos (by norm_num) e)
    cases negative with
    | false =>
      have hv : (mag false m e).value = m * 2 ^ e := signed_false m e
      exact ⟨fun ht => absurd ht (by simp [tag, KEY_NEGATIVE, KEY_POSITIVE]), fun _ => hv ▸ hpos,
        fun ht => absurd ht (by simp [tag, KEY_ZERO, KEY_POSITIVE])⟩
    | true =>
      have hv : (mag true m e).value = -(m * 2 ^ e) := signed_true m e
      exact ⟨fun _ => by rw [hv]; exact neg_neg_of_pos hpos, fun ht => absurd ht (by
        simp [tag, KEY_NEGATIVE, KEY_POSITIVE]), fun ht => absurd ht (by simp [tag, KEY_ZERO, KEY_NEGATIVE])⟩
  | negInf | zero | posInf | nan =>
    exact ⟨fun ht => absurd ht (by decide), fun ht => absurd ht (by decide), fun _ => rfl⟩

theorem finite_tags : ∀ t t' : Fin 0x27, t.val < t'.val → KEY_NEG_INF ≤ t.val → ¬ group t.val < group t'.val →
    t.val = KEY_NEGATIVE ∧ (t'.val = KEY_ZERO ∨ t'.val = KEY_POSITIVE) ∨ t.val = KEY_ZERO ∧ t'.val = KEY_POSITIVE := by
  decide

theorem place_lt {s' : Shape} (h : s.Ok) (h' : s'.Ok) (ht : s.tag < s'.tag) : s.place < s'.place := by
  obtain ⟨hneg, -, hzero⟩ := value_sign h
  obtain ⟨-, hpos, hzero'⟩ := value_sign h'
  refine Prod.Lex.toLex_lt_toLex.2 ?_
  by_cases hg : group s.tag < group s'.tag
  · exact Or.inl hg
  · -- both are finite: minus, zero, plus
    have hfin : s.tag = KEY_NEGATIVE ∧ (s'.tag = KEY_ZERO ∨ s'.tag = KEY_POSITIVE) ∨
        s.tag = KEY_ZERO ∧ s'.tag = KEY_POSITIVE :=
      finite_tags ⟨s.tag, Nat.lt_succ_of_le s.tag_range.2⟩ ⟨s'.tag, Nat.lt_succ_of_le s'.tag_range.2⟩ ht
        s.tag_range.1 hg
    refine Or.inr ⟨?_, ?_⟩
    · show group s.tag = group s'.tag
      rcases hfin with ⟨h1, h2 | h2⟩ | ⟨h1, h2⟩ <;> rw [h1, h2] <;> rfl
    · rcases hfin with ⟨h1, h2 | h2⟩ | ⟨h1, h2⟩
      · rw [hzero' h2]
        exact hneg h1
      · exact (hneg h1).trans (hpos h2)
      · rw [hzero h1]
        exact hpos h2

theorem eq_mag_of_tag {negative : Bool} (h : s.tag = (mag negative m e).tag) : ∃ m' e', s = mag negative m' e' := by
  rcases s with ⟨_ | _, m', e'⟩ | _ | _ | _ | _ <;> cases negative <;>
    first | exact ⟨m', e', rfl⟩ | simp [tag, KEY_NEG_INF, KEY_NEGATIVE, KEY_ZERO, KEY_POSITIVE, KEY_POS_INF,
    KEY_NAN] at h

theorem settle_same_tag {s' : Shape} (h : s.Ok) (h' : s'.Ok) (ht : s.tag = s'.tag) :
    settle s.code s'.code = some (cmp s.place s'.place) := by
  have hplace : cmp s.place s'.place = cmp s.value s'.value := by
    have hmono : StrictMono (fun q : ℚ => (toLex (group s.tag, q) : ℕ ×ₗ ℚ)) :=
      fun a b hab => Prod.Lex.toLex_lt_toLex.2 (Or.inr ⟨rfl, hab⟩)
    rw [← hmono.cmp_map_eq, place, place, ← ht]
  rw [hplace]
  have hone : ∀ s : Shape, (∃ negative m e, s = mag negative m e) ∨ s.code = [byte s.tag] ∧ s.value = 0 := by
    intro s
    cases s with
    | mag negative m e => exact Or.inl ⟨negative, m, e, rfl⟩
    | negInf | zero | posInf | nan => exact Or.inr ⟨rfl, rfl⟩
  rcases hone s with ⟨negative, m, e, rfl⟩ | ⟨hc, hv⟩
  · obtain ⟨m', e', rfl⟩ := eq_mag_of_tag ht.symm
    exact settle_putMagnitude h h' negative
  · rcases hone s' with ⟨negative, m, e, rfl⟩ | ⟨hc', hv'⟩
    · obtain ⟨m', e', rfl⟩ := eq_mag_of_tag ht
      exact settle_putMagnitude h h' negative
    · rw [hc, hc', hv, hv', ht, settle_self, cmp_same]

/-- **Numbers settle as their places compare.** -/
theorem settle_code {s' : Shape} (h : s.Ok) (h' : s'.Ok) : settle s.code s'.code = some (cmp s.place s'.place) := by
  obtain ⟨l, hl⟩ := code_cons h
  obtain ⟨l', hl'⟩ := code_cons h'
  have hlt := s.tag_range.2.trans_lt (show KEY_NAN < 256 by decide)
  have hlt' := s'.tag_range.2.trans_lt (show KEY_NAN < 256 by decide)
  rcases lt_trichotomy s.tag s'.tag with ht | ht | ht
  · rw [hl, hl', settle_cons_lt (byte_lt hlt' ht), (cmp_eq_lt_iff _ _).2 (place_lt h h' ht)]
  · exact settle_same_tag h h' ht
  · rw [hl, hl', settle_cons_gt (byte_lt hlt ht), (cmp_eq_gt_iff _ _).2 (place_lt h' h ht)]

end Shape

def Num.shape : Num → Shape
  | .exact v =>
    if v.toNat = 0 then .zero
    else if 2 ^ 63 ≤ v.toNat then .mag true (2 ^ 64 - v.toNat) 0
    else .mag false v.toNat 0
  | .inexact bits =>
    let negative := decide (bits.toNat / 2 ^ 63 = 1)
    let field : Nat := bits.toNat / 2 ^ 52 % 2 ^ 11
    let frac := bits.toNat % 2 ^ 52
    if field = 0x7ff then (if frac ≠ 0 then .nan else if negative then .negInf else .posInf)
    else if field = 0 ∧ frac = 0 then .zero
    else if field = 0 then .mag negative frac (-1074)
    else .mag negative (frac + 2 ^ 52) ((field : Int) - 1075)

theorem Num.shape_ok (n : Num) : n.shape.Ok := by
  cases n with
  | exact v =>
    have hv := v.isLt
    simp only [Num.shape]
    split_ifs with h0 h63
    · trivial
    · exact ⟨by omega, by omega, by decide, by decide⟩
    · exact ⟨by omega, by omega, by decide, by decide⟩
  | inexact bits =>
    have hfrac : bits.toNat % 2 ^ 52 < 2 ^ 52 := Nat.mod_lt _ (by positivity)
    have hfield : bits.toNat / 2 ^ 52 % 2 ^ 11 < 2 ^ 11 := Nat.mod_lt _ (by positivity)
    simp only [Num.shape]
    split_ifs with hinf hnan hneg hzero hsub
    · trivial
    · trivial
    · trivial
    · trivial
    · exact ⟨by omega, by omega, by decide, by decide⟩
    · exact ⟨by omega, by omega, by omega, by omega⟩

theorem Num.place_shape (n : Num) : n.place = n.shape.place := by
  cases n with
  | exact v =>
    have hv := v.isLt
    simp only [Num.place, Num.shape]
    split_ifs with h0 h63
    · have hz : v.toInt = 0 := by rw [BitVec.toInt_eq_toNat_cond]; omega
      rw [hz]
      rfl
    · have hz : v.toInt = -((2 ^ 64 - v.toNat : ℕ) : ℤ) := by
        rw [BitVec.toInt_eq_toNat_cond]
        omega
      rw [hz]
      simp [Shape.place, Shape.value, Shape.group, Shape.tag, signed, KEY_NEGATIVE, KEY_NEG_INF, KEY_POSITIVE]
    · have hz : v.toInt = (v.toNat : ℤ) := by
        rw [BitVec.toInt_eq_toNat_cond]
        omega
      rw [hz]
      simp [Shape.place, Shape.value, Shape.group, Shape.tag, signed, KEY_NEG_INF, KEY_POSITIVE]
  | inexact bits =>
    simp only [Num.place, Num.shape, decide_eq_true_eq]
    by_cases hinf : bits.toNat / 2 ^ 52 % 2 ^ 11 = 0x7ff
    · rw [if_pos hinf, if_pos hinf]
      split_ifs <;> rfl
    rw [if_neg hinf, if_neg hinf]
    by_cases hzero : bits.toNat / 2 ^ 52 % 2 ^ 11 = 0 ∧ bits.toNat % 2 ^ 52 = 0
    · rw [if_pos hzero]
      have hv : signed (doubleParts bits.toNat) = 0 := by
        simp only [doubleParts, hzero.1, hzero.2, if_true, signed, Nat.cast_zero, zero_mul, mul_zero]
      rw [hv]
      rfl
    rw [if_neg hzero]
    have hgroup : ∀ negative m e, Shape.group (Shape.mag negative m e).tag = 1 := by
      intro negative m e
      cases negative <;> rfl
    by_cases hsub : bits.toNat / 2 ^ 52 % 2 ^ 11 = 0
    · rw [if_pos hsub, Shape.place, hgroup]
      simp only [doubleParts, hsub, if_true, Shape.value]
    · rw [if_neg hsub, Shape.place, hgroup]
      simp only [doubleParts, hsub, if_false, Shape.value]

theorem keyNumber_bytes (n : Num) (rest : Bytes) : keyNumber (n.bytes ++ rest) = .ok (n.shape.code, rest) := by
  cases n with
  | exact v =>
    have hv := v.isLt
    rw [Num.bytes, cons_append, keyNumber]
    simp only [leGet, Option.map_some, leGet_lePut 8 v.toNat rest hv, Num.shape]
    split_ifs <;> first | rfl | (exfalso; simp_all)
  | inexact bits =>
    have hv := bits.isLt
    rw [Num.bytes, cons_append, keyNumber]
    simp only [leGet, Option.map_some, leGet_lePut 8 bits.toNat rest hv, Num.shape]
    rw [if_neg (by simp), if_neg (by simp)]
    split_ifs <;> rfl

/-! ## Strings -/

theorem zero_lt_byte {b : Byte} (hb : b.val ≠ 0) : byte 0 < b := Nat.pos_of_ne_zero hb

theorem settle_end_cons (b : Byte) (t : Bytes) :
    settle [byte 0, byte 0] (escape (b :: t) ++ [byte 0, byte 0]) = some .lt := by
  rw [escape]
  by_cases hb : b.val = 0
  · rw [if_pos hb, cons_append, settle_cons_same]
    exact settle_cons_lt (by decide) _ _
  · rw [if_neg hb, cons_append]
    exact settle_cons_lt (zero_lt_byte hb) _ _

theorem settle_cons_end (a : Byte) (s : Bytes) :
    settle (escape (a :: s) ++ [byte 0, byte 0]) [byte 0, byte 0] = some .gt := by
  rw [escape]
  by_cases ha : a.val = 0
  · rw [if_pos ha, cons_append, settle_cons_same]
    exact settle_cons_gt (by decide) _ _
  · rw [if_neg ha, cons_append]
    exact settle_cons_gt (zero_lt_byte ha) _ _

/-- **Escaped strings settle as the strings compare.** -/
theorem settle_escape : ∀ s t : Bytes,
    settle (escape s ++ [byte 0, byte 0]) (escape t ++ [byte 0, byte 0]) = some (memcmp s t)
  | [], [] => settle_self _
  | [], b :: t => settle_end_cons b t
  | a :: s, [] => settle_cons_end a s
  | a :: s, b :: t => by
    rw [memcmp_cons]
    rcases lt_trichotomy a b with hab | hab | hab
    · have hb : b.val ≠ 0 := fun h => by
        have : a.val < b.val := hab
        omega
      rw [(cmp_eq_lt_iff a b).2 hab, escape, escape, if_neg hb]
      by_cases ha : a.val = 0
      · rw [if_pos ha, cons_append, cons_append]
        exact settle_cons_lt (zero_lt_byte hb) _ _
      · rw [if_neg ha, cons_append, cons_append]
        exact settle_cons_lt hab _ _
    · subst hab
      rw [cmp_same, escape, escape]
      by_cases ha : a.val = 0
      · rw [if_pos ha, if_pos ha]
        simp only [cons_append, settle_cons_same]
        exact settle_escape s t
      · rw [if_neg ha, if_neg ha, cons_append, cons_append, settle_cons_same]
        exact settle_escape s t
    · have ha : a.val ≠ 0 := fun h => by
        have : b.val < a.val := hab
        omega
      rw [(cmp_eq_gt_iff a b).2 hab, escape, escape, if_neg ha]
      by_cases hb : b.val = 0
      · rw [if_pos hb, cons_append, cons_append]
        exact settle_cons_gt (zero_lt_byte ha) _ _
      · rw [if_neg hb, cons_append, cons_append]
        exact settle_cons_gt hab _ _

theorem keyString_bytes (s : Text) (rest : Bytes) :
    keyString (uleb s.bytes.length ++ s.bytes ++ rest) =
      .ok (byte KEY_STRING :: (escape s.bytes ++ [byte 0, byte 0]), rest) := by
  rw [keyString, append_assoc, ulebGet_uleb _ _ s.short]
  have hlen : ¬ (s.bytes ++ rest).length < s.bytes.length := by
    rw [List.length_append]
    omega
  dsimp only
  rw [if_neg hlen, List.take_left, List.drop_left]

/-! ## Signed integers, money, datetimes -/

/-- **Signed integers of `w` bytes settle as they compare.** -/
theorem settle_putSigned {w : Nat} (hw : 0 < w) (a b : BitVec (8 * w)) :
    settle (putSigned w a.toNat) (putSigned w b.toNat) = some (cmp a.toInt b.toInt) := by
  have hpow : 2 ^ (8 * w) = 2 * 2 ^ (8 * w - 1) := by
    rw [← pow_succ']
    congr 1
    omega
  have h256 : 256 ^ w = 2 ^ (8 * w) := by
    rw [pow_mul]
    rfl
  have ha := a.isLt
  have hb := b.isLt
  have hbias : ∀ v : BitVec (8 * w),
      ((v.toNat + 2 ^ (8 * w - 1)) % 2 ^ (8 * w) : ℕ) = v.toInt + (2 ^ (8 * w - 1) : ℕ) := by
    intro v
    have hv := v.isLt
    rw [BitVec.toInt_eq_toNat_cond]
    by_cases hs : 2 * v.toNat < 2 ^ (8 * w)
    · rw [if_pos hs, Nat.mod_eq_of_lt (by omega)]
      push_cast
      rfl
    · rw [if_neg hs, Nat.mod_eq_sub_mod (by omega), Nat.mod_eq_of_lt (by omega)]
      omega
  have hmod : ∀ x, x % 2 ^ (8 * w) < 256 ^ w := fun x => h256 ▸ Nat.mod_lt _ (by positivity)
  rw [putSigned, putSigned, settle_bePut w _ _ (hmod _) (hmod _)]
  have hmono : StrictMono (fun n : ℕ => (n : ℤ)) := Nat.strictMono_cast
  have hshift : StrictMono (fun z : ℤ => z + (2 ^ (8 * w - 1) : ℕ)) := fun x y hxy => by
    dsimp only
    omega
  congr 1
  rw [← hmono.cmp_map_eq, ← hshift.cmp_map_eq a.toInt, hbias a, hbias b]

def moneyHead (m : Money) (fl : KeyFlags) : Bytes :=
  if fl.moneyTyped then [byte KEY_MONEY_TYPED] else putCurrency m.numeric.toNat m.alpha

theorem leGet_one (b : Byte) (l : Bytes) : leGet 1 (b :: l) = some (b.val, l) := by
  simp [leGet]

theorem keyMoney_bytes (m : Money) (fl : KeyFlags) (rest : Bytes) :
    keyMoney (m.bytes ++ rest) fl = .ok (moneyHead m fl ++ putSigned 8 m.units.toNat, rest) := by
  have hlen : (byte m.alpha.length).val = m.alpha.length := Nat.mod_eq_of_lt (by have := m.short; omega)
  have hrest : ¬ (7 < m.alpha.length ∨ (m.alpha ++ rest).length < m.alpha.length) := by
    have := m.short
    rw [List.length_append]
    omega
  rw [keyMoney, Money.bytes]
  simp only [append_assoc, cons_append]
  rw [leGet_lePut 8 _ _ m.units.isLt]
  dsimp only
  rw [leGet_one]
  dsimp only
  rw [leGet_lePut 2 _ _ m.numeric.isLt]
  dsimp only
  rw [leGet_one, hlen]
  dsimp only
  rw [if_neg hrest, List.take_left, List.drop_left]
  rfl

theorem leFields_bytes : ∀ (f : List (BitVec 32)) (rest : Bytes),
    leFields f.length (f.flatMap (fun v => lePut 4 v.toNat) ++ rest) = some (f.map BitVec.toNat, rest)
  | [], _ => rfl
  | v :: f, rest => by
    rw [List.length_cons, leFields, List.flatMap_cons, append_assoc, leGet_lePut 4 _ _ v.isLt]
    dsimp only
    rw [leFields_bytes f rest]
    rfl

def dateCode (d : DateTime) : Bytes :=
  byte d.timeOnly.toNat ::
    (((d.fields.drop (if d.timeOnly then 3 else 0)).flatMap (fun f => putSigned 4 f.toNat)) ++ [byte d.precision])

theorem keyDatetime_bytes (d : DateTime) (rest : Bytes) :
    keyDatetime (d.bytes ++ rest) = .ok (byte KEY_DATETIME :: dateCode d, rest) := by
  have hp := d.named
  have hprec : (byte d.precision).val = d.precision := Nat.mod_eq_of_lt (by omega)
  have htime : (byte d.timeOnly.toNat).val = d.timeOnly.toNat := by cases d.timeOnly <;> rfl
  have hle : d.timeOnly.toNat ≤ 1 := by cases d.timeOnly <;> decide
  have hone : (d.timeOnly.toNat = 1) = (d.timeOnly = true) := by cases d.timeOnly <;> simp
  rw [keyDatetime, DateTime.bytes, append_assoc,
    show leFields 6 = leFields d.fields.length from rfl, leFields_bytes]
  dsimp only
  rw [cons_append, leGet_one]
  dsimp only
  rw [cons_append, List.nil_append, leGet_one]
  dsimp only
  rw [hprec, htime, if_neg (by omega), dateCode, ← List.map_drop, List.flatMap_map]
  simp only [hone]

def cmpFields : List (BitVec 32) → List (BitVec 32) → Ordering
  | f :: fs, g :: gs => (cmp f.toInt g.toInt).then (cmpFields fs gs)
  | _, _ => .eq

theorem settle_fields : ∀ {f g : List (BitVec 32)}, f.length = g.length →
    settle (f.flatMap (fun v => putSigned 4 v.toNat)) (g.flatMap (fun v => putSigned 4 v.toNat)) = some (cmpFields f g)
  | [], [], _ => rfl
  | [], _ :: _, h => by cases h
  | _ :: _, [], h => by cases h
  | f :: fs, g :: gs, h => by
    rw [List.flatMap_cons, List.flatMap_cons, cmpFields]
    exact settle_append (settle_putSigned (w := 4) (by decide) f g) (settle_fields (Nat.succ.inj h))

theorem settle_dateCode (a b : DateTime) : settle (dateCode a) (dateCode b) = some (a.compare b) := by
  have ha := a.named
  have hb := b.named
  have hprec : settle [byte a.precision] [byte b.precision] = some (cmp a.precision b.precision) := by
    have hone : bePut 1 a.precision = [byte a.precision] ∧ bePut 1 b.precision = [byte b.precision] := by
      simp [bePut]
    rw [← hone.1, ← hone.2]
    exact settle_bePut 1 _ _ (by omega) (by omega)
  have hbody : a.timeOnly = b.timeOnly → settle (dateCode a) (dateCode b) =
      some ((cmpFields (a.fields.drop (if a.timeOnly then 3 else 0)) (b.fields.drop (if a.timeOnly then 3 else 0))).then
        (cmp a.precision b.precision)) := by
    intro h
    rw [dateCode, dateCode, ← h, settle_cons_same]
    exact settle_append (settle_fields (by simp [DateTime.fields])) hprec
  rw [DateTime.compare]
  rcases ht : a.timeOnly with _ | _ <;> rcases ht' : b.timeOnly with _ | _
  · rw [hbody (ht.trans ht'.symm), ht]
    simp [DateTime.fields, cmpFields, Ordering.then_assoc]
  · rw [dateCode, dateCode, ht, ht', settle_cons_lt (by decide)]
    rfl
  · rw [dateCode, dateCode, ht, ht', settle_cons_gt (by decide)]
    rfl
  · rw [hbody (ht.trans ht'.symm), ht]
    simp [DateTime.fields, cmpFields, Ordering.then_assoc]

/-! ## Values -/

def Value.code (fl : KeyFlags) : Value → Bytes
  | .null => [byte KEY_ABSENT]
  | .unknown => [byte KEY_ABSENT]
  | .bool b => [byte KEY_BOOL, byte b.toNat]
  | .number n => n.shape.code
  | .string s => byte KEY_STRING :: (escape s.bytes ++ [byte 0, byte 0])
  | .money m => moneyHead m fl ++ putSigned 8 m.units.toNat
  | .datetime d => byte KEY_DATETIME :: dateCode d

/-- **A value has the component its code is.** -/
theorem component_serialize (v : Value) (fl : KeyFlags) (rest : Bytes) :
    component (serialize v ++ rest) fl = .ok (v.code fl, rest) := by
  cases v with
  | null => rfl
  | unknown => rfl
  | bool b => cases b <;> rfl
  | number n =>
    rw [serialize, cons_append, component, leGet_one]
    exact keyNumber_bytes n rest
  | string s =>
    rw [serialize, cons_append, component, leGet_one]
    exact keyString_bytes s rest
  | money m =>
    rw [serialize, cons_append, component, leGet_one]
    exact keyMoney_bytes m fl rest
  | datetime d =>
    rw [serialize, cons_append, component, leGet_one]
    exact keyDatetime_bytes d rest

def kindFrom : Nat → Nat
  | 0 => KEY_BOOL
  | 1 => KEY_NEG_INF
  | 2 => KEY_STRING
  | 3 => KEY_MONEY_TYPED
  | 4 => KEY_DATETIME
  | 5 => KEY_ABSENT
  | _ => 256

theorem Value.code_cons (v : Value) (fl : KeyFlags) :
    ∃ t l, v.code fl = byte t :: l ∧ kindFrom v.rank ≤ t ∧ t < kindFrom (v.rank + 1) := by
  have between : ∀ {k t : Nat}, k = v.rank → kindFrom k ≤ t ∧ t < kindFrom (k + 1) →
      kindFrom v.rank ≤ t ∧ t < kindFrom (v.rank + 1) := fun hk ht => hk ▸ ht
  cases v with
  | null | unknown => exact ⟨_, _, rfl, between (k := 5) rfl (by decide)⟩
  | bool b => exact ⟨_, _, rfl, between (k := 0) rfl (by decide)⟩
  | number n =>
    obtain ⟨l, hl⟩ := Shape.code_cons n.shape_ok
    exact ⟨_, l, hl, n.shape.tag_range.1, n.shape.tag_range.2.trans_lt (show KEY_NAN < KEY_STRING by decide)⟩
  | string s => exact ⟨_, _, rfl, between (k := 2) rfl (by decide)⟩
  | money m =>
    rw [Value.code, moneyHead]
    by_cases hf : fl.moneyTyped = true
    · rw [if_pos hf]
      exact ⟨_, _, rfl, between (k := 3) rfl (by decide)⟩
    · rw [if_neg hf]
      exact ⟨_, _, rfl, between (k := 3) rfl (by decide)⟩
  | datetime d => exact ⟨_, _, rfl, between (k := 4) rfl (by decide)⟩

theorem kindFrom_mono : ∀ a b : Fin 6, a.val < b.val →
    kindFrom (a.val + 1) ≤ kindFrom b.val ∧ kindFrom (b.val + 1) ≤ 256 := by
  decide

theorem Value.rank_lt (v : Value) : v.rank < 6 := by
  cases v <;> simp [Value.rank]

theorem settle_kinds (fl : KeyFlags) (h : a.rank < b.rank) : settle (a.code fl) (b.code fl) = some .lt := by
  obtain ⟨t, l, ht, -, hhigh⟩ := a.code_cons fl
  obtain ⟨t', l', ht', hlow', hhigh'⟩ := b.code_cons fl
  have hkind := kindFrom_mono ⟨a.rank, a.rank_lt⟩ ⟨b.rank, b.rank_lt⟩ h
  dsimp only at hkind
  rw [ht, ht', settle_cons_lt (byte_lt (by omega) (by omega))]

theorem settle_kinds' (fl : KeyFlags) (h : b.rank < a.rank) : settle (a.code fl) (b.code fl) = some .gt := by
  obtain ⟨t, l, ht, hlow, hhigh⟩ := a.code_cons fl
  obtain ⟨t', l', ht', -, hhigh'⟩ := b.code_cons fl
  have hkind := kindFrom_mono ⟨b.rank, b.rank_lt⟩ ⟨a.rank, a.rank_lt⟩ h
  dsimp only at hkind
  rw [ht, ht', settle_cons_gt (byte_lt (by omega) (by omega))]

theorem Value.compare_of_rank (h : a.rank ≠ b.rank) : a.compare b = cmp a.rank b.rank := by
  cases a <;> cases b <;> first | rfl | exact absurd rfl h

/-- **Components settle as the values compare.** -/
theorem settle_value (fl : KeyFlags) (h : a.OneCurrency b) : settle (a.code fl) (b.code fl) = some (a.compare b) := by
  rcases lt_trichotomy a.rank b.rank with hr | hr | hr
  · rw [settle_kinds fl hr, Value.compare_of_rank hr.ne, (cmp_eq_lt_iff _ _).2 hr]
  · cases a with
    | null | unknown =>
      cases b <;> first | rfl | exact absurd hr (by simp [Value.rank])
    | bool x =>
      cases b with
      | bool y => cases x <;> cases y <;> rfl
      | _ => exact absurd hr (by simp [Value.rank])
    | number x =>
      cases b with
      | number y =>
        rw [Value.code, Value.code, Shape.settle_code x.shape_ok y.shape_ok, Value.compare, x.place_shape,
          y.place_shape]
      | _ => exact absurd hr (by simp [Value.rank])
    | string x =>
      cases b with
      | string y =>
        rw [Value.code, Value.code, settle_cons_same]
        exact settle_escape x.bytes y.bytes
      | _ => exact absurd hr (by simp [Value.rank])
    | money x =>
      cases b with
      | money y =>
        obtain ⟨-, hn, ha⟩ := h
        have hhead : moneyHead x fl = moneyHead y fl := by rw [moneyHead, moneyHead, hn, ha]
        rw [Value.code, Value.code, hhead]
        exact settle_append (settle_self _) (settle_putSigned (w := 8) (by decide) x.units y.units)
      | _ => exact absurd hr (by simp [Value.rank])
    | datetime x =>
      cases b with
      | datetime y =>
        rw [Value.code, Value.code, settle_cons_same]
        exact settle_dateCode x y
      | _ => exact absurd hr (by simp [Value.rank])
  · rw [settle_kinds' fl hr, Value.compare_of_rank hr.ne', (cmp_eq_gt_iff _ _).2 hr]

/-! ## Tuples -/

/-- A component in its direction. -/
def Value.keyed (fl : KeyFlags) (v : Value) : Bytes := if fl.desc then (v.code fl).map notByte else v.code fl

theorem keyAppend_serialize (key : Bytes) (v : Value) (fl : KeyFlags) :
    keyAppend key (serialize v) fl = (.ok, key ++ v.keyed fl, (serialize v).length) := by
  have hc := component_serialize v fl []
  rw [append_nil] at hc
  rw [keyAppend, hc]
  rfl

theorem settle_keyed (fl : KeyFlags) (h : a.OneCurrency b) :
    settle (a.keyed fl) (b.keyed fl) = some (if fl.desc then (a.compare b).swap else a.compare b) := by
  rw [Value.keyed, Value.keyed]
  by_cases hd : fl.desc = true
  · rw [if_pos hd, if_pos hd, if_pos hd]
    exact settle_map_rev notByte_lt (settle_value fl h)
  · rw [if_neg hd, if_neg hd, if_neg hd]
    exact settle_value fl h

def keyedTuple : List KeyFlags → List Value → Bytes
  | fl :: fls, v :: vs => v.keyed fl ++ keyedTuple fls vs
  | _, _ => []

theorem tupleKey_eq : ∀ (fls : List KeyFlags) (vs : List Value) (key : Bytes),
    tupleKey fls vs key = some (key ++ keyedTuple fls vs)
  | [], vs, key => by rw [tupleKey, keyedTuple, append_nil] <;> simp
  | fl :: fls, [], key => by rw [tupleKey, keyedTuple, append_nil] <;> simp
  | fl :: fls, v :: vs, key => by
    rw [tupleKey, keyAppend_serialize]
    dsimp only
    rw [tupleKey_eq fls vs, keyedTuple, append_assoc]

theorem settle_keyedTuple : ∀ {fls : List KeyFlags} {as bs : List Value}, List.Forall₂ Value.OneCurrency as bs →
    settle (keyedTuple fls as) (keyedTuple fls bs) = some (compareTuples fls as bs)
  | [], _, _, _ => by simp [keyedTuple, compareTuples]
  | fl :: fls, [], [], _ => by simp [keyedTuple, compareTuples]
  | fl :: fls, a :: as, b :: bs, .cons h hs => by
    rw [keyedTuple, keyedTuple, compareTuples]
    exact settle_append (settle_keyed fl h) (settle_keyedTuple hs)

/-- **Key order is the language's order**: the keys of two tuples compare in memory as the tuples do. -/
theorem memcmp_tupleKey (fls : List KeyFlags) (as bs : List Value) (h : List.Forall₂ Value.OneCurrency as bs) :
    ∃ ka kb, tupleKey fls as [] = some ka ∧ tupleKey fls bs [] = some kb ∧ memcmp ka kb = compareTuples fls as bs :=
  ⟨keyedTuple fls as, keyedTuple fls bs, tupleKey_eq fls as [], tupleKey_eq fls bs [],
    memcmp_of_settle (settle_keyedTuple h)⟩

/-- Exact 5 and then an absence, against inexact 5.0 and then true, the second component descending. -/
theorem memcmp_tupleKey_five :
    ∃ ka kb,
      tupleKey [⟨false, false⟩, ⟨true, false⟩] [.number (.exact 5), .unknown] [] = some ka ∧
      tupleKey [⟨false, false⟩, ⟨true, false⟩] [.number (.inexact 0x4014000000000000), .bool true] [] = some kb ∧
      memcmp ka kb = compareTuples [⟨false, false⟩, ⟨true, false⟩] [.number (.exact 5), .unknown]
        [.number (.inexact 0x4014000000000000), .bool true] :=
  memcmp_tupleKey _ _ _ (.cons trivial (.cons trivial .nil))

example : serialize (.number (.exact 5)) ≠ serialize (.number (.inexact 0x4014000000000000)) ∧
    keyAppend [] (serialize (.number (.exact 5))) ⟨false, false⟩ =
      keyAppend [] (serialize (.number (.inexact 0x4014000000000000))) ⟨false, false⟩ := by decide +kernel

end Key
end Gbasic
