import Gbasic.Key
/-!
# KeySkip — a component's length is read from its bytes

What `component` writes, `keySkip` passes over, whatever follows it (`keySkip_component`): every kind says its length
in its first bytes or ends in bytes it does not hold.  Money of any currency ends its letters with a zero, so letters
that hold one, or that begin as a currency by number does, are the values that do not read back (`Readable`).
-/
namespace Gbasic
namespace Key

open List (length_cons cons_append nil_append)

variable {l r c value : Bytes} {fl : KeyFlags}

def moneyCode (value : Bytes) : Bytes :=
  match value.drop 12 with
  | [] => []
  | alen :: l => l.take alen.val

/-- A component of these flags reads back: money of any currency has letters that end where the zero after them is. -/
def Readable (fl : KeyFlags) (value : Bytes) : Prop :=
  (value.headD 0).val = SER_MONEY → fl.moneyTyped = false →
    (∀ b ∈ moneyCode value, b.val ≠ 0) ∧ ((moneyCode value).headD 0).val ≠ 1

instance (fl : KeyFlags) (value : Bytes) : Decidable (Readable fl value) := by
  unfold Readable
  infer_instance

theorem leGet_one_eq {v : Nat} (h : leGet 1 l = some (v, r)) : ∃ b : Byte, l = b :: r ∧ v = b.val := by
  cases l with
  | nil => cases h
  | cons b l =>
    cases h
    exact ⟨b, rfl, by omega⟩

theorem moneyCode_eq {l₁ l₂ l₃ l₄ : Bytes} {units exponent numeric alen : Nat} (hunits : leGet 8 l = some (units, l₁))
    (hexponent : leGet 1 l₁ = some (exponent, l₂)) (hnumeric : leGet 2 l₂ = some (numeric, l₃))
    (halen : leGet 1 l₃ = some (alen, l₄)) : moneyCode (byte SER_MONEY :: l) = l₄.take alen := by
  obtain ⟨p₁, hp₁, rfl⟩ := leGet_rest 8 l hunits
  obtain ⟨p₂, hp₂, rfl⟩ := leGet_rest 1 _ hexponent
  obtain ⟨p₃, hp₃, rfl⟩ := leGet_rest 2 _ hnumeric
  obtain ⟨b, rfl, rfl⟩ := leGet_one_eq halen
  have hpre : byte SER_MONEY :: (p₁ ++ (p₂ ++ (p₃ ++ b :: l₄))) = (byte SER_MONEY :: (p₁ ++ (p₂ ++ p₃))) ++
      (b :: l₄) := by
    simp
  have hlen : (byte SER_MONEY :: (p₁ ++ (p₂ ++ p₃))).length = 12 := by
    simp only [length_cons, List.length_append]
    omega
  rw [moneyCode, hpre, ← hlen, List.drop_left]

@[simp] theorem length_putSigned (w bits : Nat) : (putSigned w bits).length = w := length_bePut _ _

/-! ## Ends that are looked for -/

theorem stringEnd_escape (m : Bytes) : ∀ (s : Bytes) (i : Nat),
    stringEnd i (escape s ++ (byte 0 :: byte 0 :: m)) = some (i + (escape s).length + 2)
  | [], i => rfl
  | b :: s, i => by
    rw [escape]
    split_ifs with hb
    · have ih := stringEnd_escape m s (i + 2)
      simp only [cons_append, length_cons]
      rw [stringEnd, if_pos (by rfl), if_neg (by decide), if_pos (by rfl), ih]
      congr 1
      omega
    · have ih := stringEnd_escape m s (i + 1)
      simp only [cons_append, length_cons]
      rcases hl : escape s ++ (byte 0 :: byte 0 :: m) with _ | ⟨c, l⟩
      · exact absurd hl (by simp)
      rw [stringEnd, if_neg hb, ← hl, ih]
      congr 1
      omega

theorem zeroAt_append (m : Bytes) : ∀ (l : Bytes) (i : Nat), (∀ b ∈ l, b.val ≠ 0) →
    zeroAt i (l ++ (byte 0 :: m)) = some (i + l.length)
  | [], i, _ => rfl
  | b :: l, i, h => by
    rw [cons_append, zeroAt, if_neg (h b (List.mem_cons_self ..)),
      zeroAt_append m l (i + 1) (fun c hc => h c (List.mem_cons_of_mem _ hc)), length_cons]
    congr 1
    omega

/-! ## Kind by kind -/

structure Delimited (c : Bytes) (absent : Prop) : Prop where
  len : ∀ m, componentLen (c ++ m) = some c.length
  absent : (c.headD 0).val = KEY_ABSENT ↔ absent

theorem delimited_magnitude (negative : Bool) (m : Nat) (e : Int) : Delimited (putMagnitude negative m e) False := by
  cases negative <;> exact ⟨
    fun _ => by simp [putMagnitude, componentLen, KEY_ABSENT, KEY_NEG_INF, KEY_ZERO, KEY_POS_INF, KEY_NAN, KEY_BOOL,
      KEY_NEGATIVE, KEY_POSITIVE],
    by simp [putMagnitude, KEY_ABSENT, KEY_NEGATIVE, KEY_POSITIVE]⟩

theorem delimited_number (h : keyNumber l = .ok (c, r)) : Delimited c False := by
  have hone : ∀ tag : Nat, tag = KEY_NEG_INF ∨ tag = KEY_ZERO ∨ tag = KEY_POS_INF ∨ tag = KEY_NAN →
      Delimited [byte tag] False := by
    rintro tag (rfl | rfl | rfl | rfl) <;> exact ⟨fun _ => rfl, by decide⟩
  unfold keyNumber at h
  split at h
  · cases h
  split at h
  · cases h
  dsimp only at h
  split_ifs at h <;> cases h
  · exact hone _ (by simp)
  · exact delimited_magnitude _ _ _
  · exact delimited_magnitude _ _ _
  · exact hone _ (by simp)
  · exact hone _ (by simp)
  · exact hone _ (by simp)
  · exact hone _ (by simp)
  · exact delimited_magnitude _ _ _
  · exact delimited_magnitude _ _ _

theorem delimited_string (h : keyString l = .ok (c, r)) : Delimited c False := by
  unfold keyString at h
  split at h
  · cases h
  rename_i n l' _
  split_ifs at h
  cases h
  refine ⟨fun m => ?_, by simp; decide⟩
  have htag : ∀ x, componentLen (byte KEY_STRING :: x) = stringEnd 1 x := fun _ => rfl
  simp only [cons_append, List.append_assoc, nil_append]
  rw [htag, stringEnd_escape]
  simp
  omega

theorem delimited_money (h : keyMoney l fl = .ok (c, r))
    (hr : fl.moneyTyped = false → (∀ b ∈ moneyCode (byte SER_MONEY :: l), b.val ≠ 0) ∧
      ((moneyCode (byte SER_MONEY :: l)).headD 0).val ≠ 1) :
    Delimited c False := by
  unfold keyMoney at h
  split at h
  · cases h
  rename_i units l₁ hunits
  split at h
  · cases h
  rename_i exponent l₂ hexponent
  split at h
  · cases h
  rename_i numeric l₃ hnumeric
  split at h
  · cases h
  rename_i alen l₄ halen
  split_ifs at h with hbad htyped
  · cases h
    refine ⟨fun m => ?_, by simp; decide⟩
    have htag : ∀ x, componentLen (byte KEY_MONEY_TYPED :: x) = some 9 := fun _ => rfl
    simp only [cons_append, nil_append]
    rw [htag]
    simp
  · obtain ⟨hzero, hone⟩ := hr (by simpa using htyped)
    have hcode := moneyCode_eq hunits hexponent hnumeric halen
    rw [hcode] at hzero hone
    cases h
    refine ⟨fun m => ?_, by simp [putCurrency]; decide⟩
    have htag : ∀ (a : Byte) x, componentLen (byte KEY_MONEY :: a :: x) =
        if a.val = 1 then some 12 else (zeroAt 1 (a :: x)).map (fun i => i + 1 + 8) := fun _ _ => rfl
    unfold putCurrency
    by_cases halpha : l₄.take alen = []
    · rw [if_neg (not_not.2 halpha)]
      simp only [cons_append, List.append_assoc]
      rw [htag, if_pos (by rfl)]
      simp
    · rw [if_pos halpha]
      rcases hl : l₄.take alen with _ | ⟨a, x⟩
      · exact absurd hl halpha
      rw [hl] at hzero hone
      simp only [cons_append, List.append_assoc, nil_append]
      rw [htag, if_neg (by simpa using hone)]
      have hfind := zeroAt_append (putSigned 8 units ++ m) (a :: x) 1 hzero
      rw [cons_append] at hfind
      rw [hfind]
      simp
      omega

theorem leFields_length : ∀ {n : Nat} {l r : Bytes} {f : List Nat}, leFields n l = some (f, r) → f.length = n
  | 0, l, r, f, h => by
    cases h
    rfl
  | n + 1, l, r, f, h => by
    unfold leFields at h
    split at h
    · cases h
    obtain ⟨⟨f', r'⟩, hf, he⟩ := Option.map_eq_some_iff.1 h
    cases he
    rw [length_cons, leFields_length hf]

theorem delimited_datetime (h : keyDatetime l = .ok (c, r)) : Delimited c False := by
  unfold keyDatetime at h
  split at h
  · cases h
  rename_i f l₁ hf
  split at h
  · cases h
  rename_i timeOnly l₂ _
  split at h
  · cases h
  rename_i precision l₃ _
  have hlen := leFields_length hf
  have htag : ∀ (o : Byte) x, componentLen (byte KEY_DATETIME :: o :: x) =
      if 1 < o.val then none else some (2 + (if o.val = 1 then 3 else 6) * 4 + 1) := fun _ _ => rfl
  by_cases hbad : 1 < timeOnly ∨ precision < 1 ∨ 6 < precision
  · rw [if_pos hbad] at h
    cases h
  rw [if_neg hbad] at h
  cases h
  refine ⟨fun m => ?_, by simp; decide⟩
  have hval : (byte timeOnly).val = timeOnly := Nat.mod_eq_of_lt (by omega)
  simp only [cons_append]
  rw [htag, hval, if_neg (by omega)]
  by_cases ho : timeOnly = 1
  · simp [ho, hlen]
  · simp [ho, hlen]

/-- **A component says its own length, and whether it is an absence.** -/
theorem component_delimited (h : component value fl = .ok (c, r)) (hr : Readable fl value) :
    Delimited c ((value.headD 0).val = SER_NULL ∨ (value.headD 0).val = SER_UNKNOWN) := by
  unfold component at h
  split at h
  · cases h
  rename_i tag l htag
  obtain ⟨b, rfl, rfl⟩ := leGet_one_eq htag
  unfold Readable at hr
  dsimp only [List.headD_cons] at hr ⊢
  by_cases hnull : b.val = SER_NULL ∨ b.val = SER_UNKNOWN
  · rw [if_pos hnull] at h
    cases h
    exact ⟨fun _ => rfl, fun _ => hnull, fun _ => rfl⟩
  rw [if_neg hnull] at h
  rw [show (b.val = SER_NULL ∨ b.val = SER_UNKNOWN) = False from eq_false hnull]
  split_ifs at h with hbool hnumber hstring hmoney hdate hother
  · split at h
    · cases h
    split_ifs at h
    cases h
    exact ⟨fun _ => rfl, by simp; decide⟩
  · exact delimited_number h
  · exact delimited_string h
  · have hb : b = byte SER_MONEY := by rw [← hmoney, byte_of_val]
    subst hb
    exact delimited_money h (hr hmoney)
  · exact delimited_datetime h

def directed (fl : KeyFlags) (c : Bytes) : Bytes := if fl.desc then c.map notByte else c

theorem component_error {st : KeyStatus} (h : component value fl = .error st) : st ≠ .ok := by
  have hnumber : ∀ l, keyNumber l = .error st → st ≠ .ok := by
    intro l h
    unfold keyNumber at h
    split at h
    · cases h
      simp
    split at h
    · cases h
      simp
    dsimp only at h
    split_ifs at h
    cases h
    simp
  have hstring : ∀ l, keyString l = .error st → st ≠ .ok := by
    intro l h
    unfold keyString at h
    split at h
    · cases h
      simp
    split_ifs at h
    cases h
    simp
  have hmoney : ∀ l, keyMoney l fl = .error st → st ≠ .ok := by
    intro l h
    unfold keyMoney at h
    iterate 4
      split at h
      · cases h
        simp
    split_ifs at h
    cases h
    simp
  have hdate : ∀ l, keyDatetime l = .error st → st ≠ .ok := by
    intro l h
    unfold keyDatetime at h
    iterate 3
      split at h
      · cases h
        simp
    split_ifs at h
    cases h
    simp
  unfold component at h
  split at h
  · cases h
    simp
  split_ifs at h
  · split at h
    · cases h
      simp
    split_ifs at h
    cases h
    simp
  · exact hnumber _ h
  · exact hstring _ h
  · exact hmoney _ h
  · exact hdate _ h
  · cases h
    simp
  · cases h
    simp

theorem keyAppend_ok {key k : Bytes} {n : Nat} (h : keyAppend key value fl = (.ok, k, n)) :
    ∃ c r, component value fl = .ok (c, r) ∧ k = key ++ directed fl c := by
  unfold keyAppend at h
  split at h
  · rename_i st hc
    cases h
    exact absurd rfl (component_error hc)
  · rename_i c r hc
    cases h
    exact ⟨c, r, hc, rfl⟩

/-- **A component is passed over whatever follows it**, in either direction. -/
theorem keySkip_component (h : component value fl = .ok (c, r)) (hr : Readable fl value) (m : Bytes) :
    keySkip (directed fl c ++ m) fl = (.ok, c.length) := by
  have hlen := (component_delimited h hr).len
  have hin : ∀ x : Bytes, ¬ (c ++ x).length < c.length := fun x => by simp
  unfold keySkip directed
  cases fl.desc with
  | true =>
    simp only [if_true]
    have hmap : (c.map notByte ++ m).map notByte = c ++ m.map notByte := by
      rw [List.map_append, List.map_map]
      have hid : notByte ∘ notByte = id := funext notByte_notByte
      rw [hid, List.map_id]
    rw [hmap, hlen]
    simp
  | false =>
    simp only [Bool.false_eq_true, if_false]
    rw [hlen]
    simp

end Key
end Gbasic
