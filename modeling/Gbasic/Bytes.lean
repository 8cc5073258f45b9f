import Mathlib.Data.Fintype.Basic
import Mathlib.Data.List.TakeWhile
import Mathlib.Data.Nat.Digits.Defs
import Mathlib.Tactic.Ring
import Gbasic.Codes
/-!
# Bytes — integers in bytes (library)

Fixed widths in either order, a seven-bits-a-byte length, and reading them back from the front of a string.  Big-endian
integers of one width settle as the integers compare.  Nothing here names a repository.
-/
namespace Gbasic

abbrev Byte := Fin 256

instance Byte.neZero : NeZero 256 := ⟨by decide⟩

instance Byte.lawful : LawfulBEq Byte := inferInstance

instance Byte.lawfulList : LawfulBEq (List Byte) := inferInstance

def byte (n : Nat) : Byte := ⟨n % 256, Nat.mod_lt _ (by decide)⟩

def notByte (b : Byte) : Byte := ⟨255 - b.val, by omega⟩

@[simp] theorem byte_val (n : Nat) : (byte n).val = n % 256 := rfl

theorem byte_of_lt {n : Nat} (h : n < 256) : (byte n).val = n := Nat.mod_eq_of_lt h

theorem byte_lt {a b : Nat} (hb : b < 256) (h : a < b) : byte a < byte b := by
  show (byte a).val < (byte b).val
  rw [byte_of_lt hb, byte_of_lt (h.trans hb)]
  exact h

theorem byte_of_val (b : Byte) : byte b.val = b := Fin.ext (Nat.mod_eq_of_lt b.isLt)

@[simp] theorem notByte_notByte (b : Byte) : notByte (notByte b) = b := by
  apply Fin.ext
  show 255 - (255 - b.val) = b.val
  omega

theorem notByte_lt (a b : Byte) (h : a < b) : notByte b < notByte a := by
  show 255 - b.val < 255 - a.val
  have hab : a.val < b.val := h
  omega

/-! ## Text -/

/-- The bytes of a text of one-byte characters. -/
def text (s : String) : List Byte := s.toList.map (fun c => byte c.toNat)

def cString (l : List Byte) : List Byte := l.takeWhile (fun b => decide (b.val ≠ 0))

theorem cString_eq {l : List Byte} (h : ∀ b ∈ l, b.val ≠ 0) : cString l = l := by
  rw [cString, List.takeWhile_eq_self_iff]
  intro b hb
  exact decide_eq_true (h b hb)

/-! ## Decimal digits -/

def isDigit (b : Byte) : Bool := 48 ≤ b.val ∧ b.val ≤ 57

/-- `%llu`. -/
def decimal (n : Nat) : List Byte :=
  if n = 0 then [byte 48] else (Nat.digits 10 n).reverse.map (fun d => byte (48 + d))

def decimalPadded (w n : Nat) : List Byte := List.replicate (w - (decimal n).length) (byte 48) ++ decimal n

theorem length_decimalPadded (w n : Nat) : w ≤ (decimalPadded w n).length := by
  rw [decimalPadded, List.length_append, List.length_replicate]
  omega

/-! ## Fixed widths -/

def bePut : Nat → Nat → List Byte
  | 0, _ => []
  | w + 1, v => byte (v / 256 ^ w) :: bePut w v

/-- The low `w` bytes, the lowest first. -/
def lePut : Nat → Nat → List Byte
  | 0, _ => []
  | w + 1, v => byte v :: lePut w (v / 256)

def leGet : Nat → List Byte → Option (Nat × List Byte)
  | 0, l => some (0, l)
  | _ + 1, [] => none
  | w + 1, b :: l => (leGet w l).map (fun p => (b.val + 256 * p.1, p.2))

def beNat (l : List Byte) : Nat := l.foldl (fun v b => v * 256 + b.val) 0

def leNat : List Byte → Nat
  | [] => 0
  | b :: l => b.val + 256 * leNat l

abbrev Unsigned (w : Nat) := Fin (256 ^ w)

def toUnsigned (w n : Nat) : Unsigned w := ⟨n % 256 ^ w, Nat.mod_lt _ (Nat.pow_pos (by decide))⟩

@[simp] theorem length_bePut : ∀ w v : Nat, (bePut w v).length = w
  | 0, _ => rfl
  | w + 1, v => by rw [bePut, List.length_cons, length_bePut]

@[simp] theorem length_lePut : ∀ w v : Nat, (lePut w v).length = w
  | 0, _ => rfl
  | w + 1, v => by rw [lePut, List.length_cons, length_lePut]

theorem leGet_lePut : ∀ (w v : Nat) (l : List Byte), v < 256 ^ w → leGet w (lePut w v ++ l) = some (v, l)
  | 0, v, l, h => by
    have hv : v = 0 := by rw [pow_zero] at h; omega
    subst hv
    rfl
  | w + 1, v, l, h => by
    have hlt : v / 256 < 256 ^ w := by
      rw [pow_succ] at h
      exact Nat.div_lt_of_lt_mul (by rw [Nat.mul_comm]; exact h)
    rw [lePut, List.cons_append, leGet, leGet_lePut w _ l hlt]
    show some ((byte v).val + 256 * (v / 256), l) = _
    rw [byte_val, Nat.mod_add_div]

theorem leGet_append : ∀ (w : Nat) (l m : List Byte) {v : Nat} {r : List Byte}, leGet w l = some (v, r) →
    leGet w (l ++ m) = some (v, r ++ m)
  | 0, l, m, v, r, h => by cases h; rfl
  | w + 1, [], m, v, r, h => by cases h
  | w + 1, b :: l, m, v, r, h => by
    rw [leGet] at h
    obtain ⟨⟨v', r'⟩, hg, hv⟩ := Option.map_eq_some_iff.1 h
    cases hv
    rw [List.cons_append, leGet, leGet_append w l m hg]
    rfl

theorem leGet_rest : ∀ (w : Nat) (l : List Byte) {v : Nat} {r : List Byte}, leGet w l = some (v, r) →
    ∃ p, p.length = w ∧ l = p ++ r
  | 0, l, v, r, h => by cases h; exact ⟨[], rfl, rfl⟩
  | w + 1, [], v, r, h => by cases h
  | w + 1, b :: l, v, r, h => by
    rw [leGet] at h
    obtain ⟨⟨v', r'⟩, hg, hv⟩ := Option.map_eq_some_iff.1 h
    cases hv
    obtain ⟨p, hp, rfl⟩ := leGet_rest w l hg
    exact ⟨b :: p, by rw [List.length_cons, hp], rfl⟩

/-- **Big-endian integers of one width settle as the integers compare.** -/
theorem settle_bePut : ∀ (w v v' : Nat), v < 256 ^ w → v' < 256 ^ w → settle (bePut w v) (bePut w v') = some (cmp v v')
  | 0, v, v', h, h' => by
    have hv : v = v' := by rw [pow_zero] at h h'; omega
    rw [hv, cmp_same]
    rfl
  | w + 1, v, v', h, h' => by
    have hpos : 0 < 256 ^ w := Nat.pow_pos (by decide)
    have hd : v / 256 ^ w < 256 := Nat.div_lt_of_lt_mul (by rw [← pow_succ]; exact h)
    have hd' : v' / 256 ^ w < 256 := Nat.div_lt_of_lt_mul (by rw [← pow_succ]; exact h')
    rw [bePut, bePut]
    rcases lt_trichotomy (v / 256 ^ w) (v' / 256 ^ w) with hlt | heq | hgt
    · have hb : byte (v / 256 ^ w) < byte (v' / 256 ^ w) := by
        show _ % 256 < _ % 256
        rw [Nat.mod_eq_of_lt hd, Nat.mod_eq_of_lt hd']
        exact hlt
      rw [settle_cons_lt hb, (cmp_eq_lt_iff v v').2 (Nat.lt_of_div_lt_div hlt)]
    · have hmod : ∀ x, settle (bePut w x) (bePut w (x % 256 ^ w)) = some .eq := fun x => by
        rw [show bePut w (x % 256 ^ w) = bePut w x from bePut_mod w x, settle_self]
      rw [heq, settle_cons_same, ← bePut_mod w v, ← bePut_mod w v',
        settle_bePut w _ _ (Nat.mod_lt _ hpos) (Nat.mod_lt _ hpos)]
      congr 1
      have hv := Nat.div_add_mod v (256 ^ w)
      have hv' := Nat.div_add_mod v' (256 ^ w)
      rw [heq] at hv
      rcases lt_trichotomy (v % 256 ^ w) (v' % 256 ^ w) with hm | hm | hm
      · rw [(cmp_eq_lt_iff _ _).2 hm, (cmp_eq_lt_iff v v').2 (by omega)]
      · have hvv : v = v' := by omega
        rw [hm, hvv, cmp_same, cmp_same]
      · rw [(cmp_eq_gt_iff _ _).2 hm, (cmp_eq_gt_iff v v').2 (by omega)]
    · have hb : byte (v' / 256 ^ w) < byte (v / 256 ^ w) := by
        show _ % 256 < _ % 256
        rw [Nat.mod_eq_of_lt hd, Nat.mod_eq_of_lt hd']
        exact hgt
      rw [settle_cons_gt hb, (cmp_eq_gt_iff v v').2 (Nat.lt_of_div_lt_div hgt)]
where
  bePut_mod : ∀ (w x : Nat), bePut w (x % 256 ^ w) = bePut w x
  | 0, x => rfl
  | w + 1, x => by
    have hpos : 0 < 256 ^ w := Nat.pow_pos (by decide)
    have hhead : byte (x % 256 ^ (w + 1) / 256 ^ w) = byte (x / 256 ^ w) := by
      apply Fin.ext
      show x % 256 ^ (w + 1) / 256 ^ w % 256 = x / 256 ^ w % 256
      rw [pow_succ, Nat.mod_mul_right_div_self, Nat.mod_mod]
    have htail : bePut w (x % 256 ^ (w + 1)) = bePut w x := by
      rw [← bePut_mod w (x % 256 ^ (w + 1)), pow_succ, Nat.mod_mul_right_mod, bePut_mod w x]
    rw [bePut, bePut, hhead, htail]

theorem append_bePut_le {w v v' : Nat} (h : v < 256 ^ w) (h' : v' < 256 ^ w) (p : List Byte) :
    p ++ bePut w v ≤ p ++ bePut w v' ↔ v ≤ v' := by
  have hs := compares_of_settle (settle_append (settle_self p) (settle_bePut w v v' h h'))
  rw [← hs.ne_gt, ← (cmp_compares v v').ne_gt]
  rfl

theorem bePut_injective {w v v' : Nat} (h : v < 256 ^ w) (h' : v' < 256 ^ w) (he : bePut w v = bePut w v') :
    v = v' := by
  have hs := settle_bePut w v v' h h'
  rw [he, settle_self] at hs
  exact (cmp_eq_eq_iff v v').1 (Option.some.inj hs).symm

theorem leNat_lt : ∀ l : List Byte, leNat l < 256 ^ l.length
  | [] => by simp [leNat]
  | b :: l => by
    have ih := leNat_lt l
    have hb := b.isLt
    rw [leNat, List.length_cons, pow_succ]
    omega

theorem leNat_lePut : ∀ w v : Nat, v < 256 ^ w → leNat (lePut w v) = v
  | 0, v, h => by
    rw [pow_zero] at h
    show 0 = v
    omega
  | w + 1, v, h => by
    have hlt : v / 256 < 256 ^ w := by
      rw [pow_succ] at h
      exact Nat.div_lt_of_lt_mul (by rw [Nat.mul_comm]; exact h)
    rw [lePut, leNat, leNat_lePut w _ hlt, byte_val, Nat.mod_add_div]

theorem foldl_bePut : ∀ w acc v : Nat, v < 256 ^ w →
    (bePut w v).foldl (fun v b => v * 256 + b.val) acc = acc * 256 ^ w + v
  | 0, acc, v, h => by
    rw [pow_zero] at h
    show acc = acc * 1 + v
    omega
  | w + 1, acc, v, h => by
    have hpos : 0 < 256 ^ w := Nat.pow_pos (by decide)
    have hd : v / 256 ^ w < 256 := Nat.div_lt_of_lt_mul (by rw [← pow_succ]; exact h)
    have hsplit : v = 256 ^ w * (v / 256 ^ w) + v % 256 ^ w := (Nat.div_add_mod v _).symm
    rw [bePut, List.foldl_cons, byte_val, Nat.mod_eq_of_lt hd, ← settle_bePut.bePut_mod w v,
      foldl_bePut w _ _ (Nat.mod_lt _ hpos)]
    calc (acc * 256 + v / 256 ^ w) * 256 ^ w + v % 256 ^ w
        = acc * 256 ^ (w + 1) + (256 ^ w * (v / 256 ^ w) + v % 256 ^ w) := by ring
      _ = acc * 256 ^ (w + 1) + v := by rw [← hsplit]

theorem beNat_bePut (w v : Nat) (h : v < 256 ^ w) : beNat (bePut w v) = v := by
  rw [beNat, foldl_bePut w 0 v h, Nat.zero_mul, Nat.zero_add]

@[simp] theorem toUnsigned_val {w : Nat} (u : Unsigned w) : toUnsigned w u.val = u :=
  Fin.ext (Nat.mod_eq_of_lt u.isLt)

/-! ## Lengths, seven bits a byte -/

def ulebPut : Nat → Nat → List Byte
  | 0, _ => []
  | f + 1, v => if v / 128 ≠ 0 then byte (v % 128 + 128) :: ulebPut f (v / 128) else [byte (v % 128)]

def uleb (v : Nat) : List Byte := ulebPut 10 v

/-- Its reader, `n` bytes from giving up: the tenth byte may hold the one bit that is left. -/
def ulebGet : Nat → Nat → Nat → List Byte → Option (Nat × List Byte)
  | 0, _, _, _ => none
  | _ + 1, _, _, [] => none
  | n + 1, shift, v, b :: l =>
    if shift = 63 ∧ 2 ≤ b.val % 128 then none
    else
      let v := v + b.val % 128 * 2 ^ shift
      if b.val < 128 then some (v, l) else ulebGet n (shift + 7) v l

theorem ulebGet_ulebPut : ∀ (n shift acc v : Nat) (l : List Byte), shift + 7 * n = 70 → shift ≤ 63 →
    v < 2 ^ (64 - shift) → ulebGet n shift acc (ulebPut n v ++ l) = some (acc + v * 2 ^ shift, l)
  | 0, shift, acc, v, l, hs, h63, hv => by omega
  | n + 1, shift, acc, v, l, hs, h63, hv => by
    have hmod : v % 128 < 128 := Nat.mod_lt _ (by decide)
    have hlast : shift = 63 → v < 2 := by
      intro h
      rw [h] at hv
      exact hv
    by_cases hd : v / 128 = 0
    · have hlt : v < 128 := by omega
      rw [ulebPut, if_neg (by omega), List.cons_append, List.nil_append, ulebGet]
      have hb : (byte (v % 128)).val = v := by
        rw [byte_val]
        omega
      rw [hb, if_neg (by omega)]
      dsimp only
      rw [if_pos hlt, Nat.mod_eq_of_lt hlt]
    · have hs7 : shift + 7 ≤ 63 := by
        by_contra hcon
        have h63 : shift = 63 := by omega
        have := hlast h63
        omega
      have hb : (byte (v % 128 + 128)).val = v % 128 + 128 := by
        rw [byte_val]
        omega
      have hnext : v / 128 < 2 ^ (64 - (shift + 7)) := by
        have hpow : 2 ^ (64 - shift) = 128 * 2 ^ (64 - (shift + 7)) := by
          rw [show 64 - shift = 7 + (64 - (shift + 7)) by omega, pow_add]
          rfl
        rw [hpow] at hv
        exact Nat.div_lt_of_lt_mul hv
      rw [ulebPut, if_pos hd, List.cons_append, ulebGet, hb, if_neg (by omega)]
      dsimp only
      rw [if_neg (by omega), ulebGet_ulebPut n (shift + 7) _ (v / 128) l (by omega) hs7 hnext]
      have hsplit : v = 128 * (v / 128) + v % 128 := (Nat.div_add_mod v 128).symm
      have hval : acc + (v % 128 + 128) % 128 * 2 ^ shift + v / 128 * 2 ^ (shift + 7) = acc + v * 2 ^ shift := by
        rw [Nat.add_mod_right, Nat.mod_mod, pow_add]
        conv_rhs => rw [hsplit]
        ring
      rw [hval]

theorem ulebGet_uleb (v : Nat) (l : List Byte) (h : v < 2 ^ 64) : ulebGet 10 0 0 (uleb v ++ l) = some (v, l) := by
  rw [uleb, ulebGet_ulebPut 10 0 0 v l (by omega) (by omega) h]
  simp

theorem ulebGet_append : ∀ (n shift acc : Nat) (l m : List Byte) {v : Nat} {r : List Byte},
    ulebGet n shift acc l = some (v, r) → ulebGet n shift acc (l ++ m) = some (v, r ++ m)
  | 0, _, _, _, _, _, _, h => by cases h
  | _ + 1, _, _, [], _, _, _, h => by cases h
  | n + 1, shift, acc, b :: l, m, v, r, h => by
    rw [ulebGet] at h
    rw [List.cons_append, ulebGet]
    by_cases hc : shift = 63 ∧ 2 ≤ b.val % 128
    · rw [if_pos hc] at h
      cases h
    rw [if_neg hc] at h ⊢
    dsimp only at h ⊢
    by_cases hb : b.val < 128
    · rw [if_pos hb] at h ⊢
      cases h
      rfl
    · rw [if_neg hb] at h ⊢
      exact ulebGet_append n _ _ l m h

theorem ulebGet_strip : ∀ (n shift acc : Nat) (l : List Byte) {v : Nat} {r : List Byte},
    ulebGet n shift acc l = some (v, r) → ∃ p, l = p ++ r ∧ ulebGet n shift acc p = some (v, [])
  | 0, _, _, _, _, _, h => by cases h
  | _ + 1, _, _, [], _, _, h => by cases h
  | n + 1, shift, acc, b :: l, v, r, h => by
    rw [ulebGet] at h
    by_cases hc : shift = 63 ∧ 2 ≤ b.val % 128
    · rw [if_pos hc] at h
      cases h
    rw [if_neg hc] at h
    dsimp only at h
    by_cases hb : b.val < 128
    · rw [if_pos hb] at h
      cases h
      refine ⟨[b], rfl, ?_⟩
      rw [ulebGet, if_neg hc]
      dsimp only
      rw [if_pos hb]
    · rw [if_neg hb] at h
      obtain ⟨p, rfl, hp⟩ := ulebGet_strip n _ _ l h
      refine ⟨b :: p, rfl, ?_⟩
      rw [ulebGet, if_neg hc]
      dsimp only
      rw [if_neg hb, hp]

theorem ulebGet_rest (n shift acc : Nat) (l : List Byte) {v : Nat} {r : List Byte}
    (h : ulebGet n shift acc l = some (v, r)) : ∃ p, p ≠ [] ∧ l = p ++ r := by
  obtain ⟨p, rfl, hp⟩ := ulebGet_strip n shift acc l h
  refine ⟨p, fun hnil => ?_, rfl⟩
  subst hnil
  cases n <;> cases hp

end Gbasic
