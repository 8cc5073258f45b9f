import Gbasic.KeySkip
/-!
# KeyDelimit — when a component delimits itself

A component is passed over whatever follows it, and none of its truncations is taken for one, unless it is money of any
currency whose letters hold a zero, or begin with the byte that stands before a currency's number (`SelfEnding`).
Components that delimit themselves are no beginning of one another, and a key of them is split back (`splitKey`).
`skipAt` is `gsql_key_skip` read byte by byte, each read of a place in the buffer.
-/
namespace Gbasic
namespace Key

open List (cons_append length_cons length_append)

variable {fl : KeyFlags} {l value r : Bytes} {n : Nat}

/-- A value's component, as `gsql_key_append` writes it at the end of a key. -/
def Encodes (fl : KeyFlags) (value e : Bytes) : Prop := ∃ used, keyAppend [] value fl = (.ok, e, used)

/-- The letters of money of any currency end where the zero after them is.  Letters that begin with a one are passed
over as a number is, which is as long as two of them. -/
def SelfEnding (fl : KeyFlags) (value : Bytes) : Prop :=
  (value.headD 0).val = SER_MONEY → fl.moneyTyped = false →
    if ((moneyCode value).headD 0).val = 1 then (moneyCode value).length = 2 else ∀ b ∈ moneyCode value, b.val ≠ 0

instance (fl : KeyFlags) (value : Bytes) : Decidable (SelfEnding fl value) :=
  inferInstanceAs (Decidable (_ → _))

theorem Readable.selfEnding (h : Readable fl value) : SelfEnding fl value := by
  intro htag htyped
  obtain ⟨hzero, hone⟩ := h htag htyped
  rw [if_neg hone]
  exact hzero

theorem zeroAt_more (m : Bytes) : ∀ {l : Bytes} {i k : Nat}, zeroAt i l = some k → zeroAt i (l ++ m) = some k
  | b :: l, i, k, h => by
    rw [zeroAt] at h
    rw [cons_append, zeroAt]
    split
    · rw [if_pos ‹_›] at h
      exact h
    · rw [if_neg ‹_›] at h
      exact zeroAt_more m h

theorem zeroAt_lt (m : Bytes) : ∀ {l : Bytes} {i : Nat} {b : Byte}, b ∈ l → b.val = 0 →
    ∃ k, zeroAt i (l ++ m) = some k ∧ k < i + l.length
  | a :: l, i, b, hb, hz => by
    rw [cons_append, zeroAt, length_cons]
    split
    · exact ⟨i, rfl, by omega⟩
    · rename_i ha
      rcases List.mem_cons.1 hb with rfl | hb
      · exact absurd hz ha
      · obtain ⟨k, hk, hlt⟩ := zeroAt_lt m (i := i + 1) hb hz
        exact ⟨k, hk, by omega⟩

theorem stringEnd_more (m : Bytes) : ∀ {l : Bytes} {i k : Nat}, stringEnd i l = some k → stringEnd i (l ++ m) = some k
  | [], _, _, h => by cases h
  | [_], _, _, h => by cases h
  | a :: b :: l, i, k, h => by
    rw [stringEnd] at h
    rw [cons_append, cons_append, stringEnd]
    split
    · rw [if_pos ‹_›] at h
      split
      · rw [if_pos ‹_›] at h
        exact h
      · rw [if_neg ‹_›] at h
        split
        · rw [if_pos ‹_›] at h
          exact stringEnd_more m h
        · rw [if_neg ‹_›] at h
          cases h
    · rw [if_neg ‹_›] at h
      exact stringEnd_more m h

theorem componentLen_more (m : Bytes) (h : componentLen l = some n) : componentLen (l ++ m) = some n := by
  rcases l with _ | ⟨t, l⟩
  · cases h
  rw [cons_append]
  unfold componentLen at h ⊢
  dsimp only at h ⊢
  split_ifs at h ⊢ with h1 h2 h3 h4 h5 h6 h7
  · exact h
  · exact h
  · exact h
  · exact h
  · rcases l with _ | ⟨a, l⟩
    · cases h
    · dsimp only [cons_append] at h ⊢
      split_ifs at h ⊢
      · exact h
      · obtain ⟨k, hk, rfl⟩ := Option.map_eq_some_iff.1 h
        rw [← cons_append, zeroAt_more m hk]
        rfl
  · rcases l with _ | ⟨o, l⟩
    · cases h
    · exact h
  · exact stringEnd_more m h

def turned (fl : KeyFlags) (l : Bytes) : Bytes := if fl.desc then l.map notByte else l

theorem turned_append (fl : KeyFlags) (l m : Bytes) : turned fl (l ++ m) = turned fl l ++ turned fl m := by
  unfold turned
  split
  · rw [List.map_append]
  · rfl

theorem length_turned (fl : KeyFlags) (l : Bytes) : (turned fl l).length = l.length := by
  unfold turned
  split
  · rw [List.length_map]
  · rfl

theorem turned_turned (fl : KeyFlags) (l : Bytes) : turned fl (turned fl l) = l := by
  unfold turned
  split
  · rw [List.map_map]
    have hid : notByte ∘ notByte = id := funext notByte_notByte
    rw [hid, List.map_id]
  · rfl

theorem keySkip_eq (l : Bytes) (fl : KeyFlags) : keySkip l fl =
    match componentLen (turned fl l) with
    | none => (.corrupt, 0)
    | some n => if l.length < n then (.corrupt, 0) else (.ok, n) := rfl

theorem keySkip_ok_iff : keySkip l fl = (.ok, n) ↔ componentLen (turned fl l) = some n ∧ n ≤ l.length := by
  rw [keySkip_eq]
  cases componentLen (turned fl l) with
  | none =>
    constructor
    · rintro ⟨⟩
    · rintro ⟨⟨⟩, -⟩
  | some k =>
    dsimp only
    split
    · constructor
      · rintro ⟨⟩
      · rintro ⟨h, hn⟩
        cases h
        omega
    · constructor
      · intro h
        cases h
        exact ⟨rfl, by omega⟩
      · rintro ⟨h, -⟩
        cases h
        rfl

theorem keySkip_more (h : keySkip l fl = (.ok, n)) (m : Bytes) : keySkip (l ++ m) fl = (.ok, n) := by
  obtain ⟨hlen, hn⟩ := keySkip_ok_iff.1 h
  refine keySkip_ok_iff.2 ⟨?_, ?_⟩
  · rw [turned_append]
    exact componentLen_more _ hlen
  · rw [length_append]
    omega

/-! ## Which components delimit themselves -/

theorem keyMoney_shape {c : Bytes} (h : keyMoney l fl = .ok (c, r)) :
    ∃ units numeric, c = (if fl.moneyTyped then [byte KEY_MONEY_TYPED]
      else putCurrency numeric (moneyCode (byte SER_MONEY :: l))) ++ putSigned 8 units := by
  unfold keyMoney at h
  split at h
  · cases h
  rename_i units l₁ hunits
  split at h
  · cases h
  rename_i exponent l₂ hexponent
  split at h
  · cases h
  rename_i numeric l₃ hnumeric
  split at h
  · cases h
  rename_i alen l₄ halen
  split at h
  · cases h
  · cases h
    refine ⟨units, numeric, ?_⟩
    rw [moneyCode_eq hunits hexponent hnumeric halen]

theorem componentLen_letters (a : Byte) (letters x : Bytes) :
    componentLen (byte KEY_MONEY :: (a :: letters ++ x)) =
      if a.val = 1 then some 12 else (zeroAt 1 (a :: letters ++ x)).map (fun i => i + 1 + 8) := rfl

/-- **A component of money with letters is passed over** as its letters say. -/
theorem letters_len {letters : Bytes} (hne : letters ≠ []) (units : Nat) (m : Bytes) :
    let c := byte KEY_MONEY :: (letters ++ [byte 0]) ++ putSigned 8 units
    componentLen (c ++ m) = some c.length ↔
      if (letters.headD 0).val = 1 then letters.length = 2 else ∀ b ∈ letters, b.val ≠ 0 := by
  rcases letters with _ | ⟨a, l⟩
  · exact absurd rfl hne
  have hc : byte KEY_MONEY :: (a :: l ++ [byte 0]) ++ putSigned 8 units ++ m =
      byte KEY_MONEY :: (a :: l ++ (byte 0 :: (putSigned 8 units ++ m))) := by
    simp only [cons_append, List.append_assoc, List.nil_append]
  dsimp only
  rw [hc, componentLen_letters, List.headD_cons]
  simp only [length_cons, length_append, length_putSigned, List.length_nil]
  split
  · rw [Option.some.injEq]
    omega
  · constructor
    · intro h b hb hz
      obtain ⟨k, hk, hlt⟩ := zeroAt_lt (byte 0 :: (putSigned 8 units ++ m)) (i := 1) hb hz
      rw [hk, Option.map_some, Option.some.injEq] at h
      rw [length_cons] at hlt
      omega
    · intro h
      rw [zeroAt_append _ _ _ h, Option.map_some, length_cons, Option.some.injEq]
      omega

/-- **Which components are passed over**, whatever follows them: those that delimit themselves. -/
theorem componentLen_iff {c : Bytes} (h : component value fl = .ok (c, r)) (m : Bytes) :
    componentLen (c ++ m) = some c.length ↔ SelfEnding fl value := by
  by_cases hr : Readable fl value
  · exact ⟨fun _ => hr.selfEnding, fun _ => (component_delimited h hr).len m⟩
  -- money of any currency whose letters are not as they should be
  have hmoney : (value.headD 0).val = SER_MONEY := by
    by_contra hne
    exact hr (fun h => absurd h hne)
  have htyped : fl.moneyTyped = false := by
    by_contra hne
    exact hr (fun _ h => absurd h hne)
  have hcode : moneyCode value ≠ [] := by
    intro hnil
    refine hr (fun _ _ => ?_)
    rw [hnil]
    exact ⟨(fun _ h => by cases h), by decide⟩
  rcases value with _ | ⟨t, l⟩
  · cases hmoney
  have ht : t = byte SER_MONEY := by
    rw [List.headD_cons] at hmoney
    rw [← hmoney, byte_of_val]
  subst ht
  have hkey : keyMoney l fl = .ok (c, r) := h
  obtain ⟨units, numeric, rfl⟩ := keyMoney_shape hkey
  rw [htyped, putCurrency, if_pos hcode]
  have hiff := letters_len hcode units m
  unfold SelfEnding
  rw [show ((byte SER_MONEY :: l).headD 0).val = SER_MONEY from rfl]
  exact hiff.trans ⟨fun h _ _ => h, fun h => h rfl htyped⟩

/-! ## What delimiting gives -/

theorem encodes_iff {e : Bytes} : Encodes fl value e ↔ ∃ c r, component value fl = .ok (c, r) ∧ e = turned fl c := by
  constructor
  · rintro ⟨used, h⟩
    obtain ⟨c, r, hc, he⟩ := keyAppend_ok h
    exact ⟨c, r, hc, he⟩
  · rintro ⟨c, r, hc, rfl⟩
    refine ⟨value.length - r.length, ?_⟩
    unfold keyAppend
    rw [hc]
    rfl

/-- The component is passed over whatever follows it, and no truncation of it is. -/
def Delimits (fl : KeyFlags) (e : Bytes) : Prop :=
  (∀ m, keySkip (e ++ m) fl = (.ok, e.length)) ∧ ∀ t u, e = t ++ u → u ≠ [] → (keySkip t fl).1 ≠ .ok

/-- **A component delimits itself exactly when its value is as it should be.** -/
theorem delimits_iff {e : Bytes} (h : Encodes fl value e) : Delimits fl e ↔ SelfEnding fl value := by
  obtain ⟨c, r, hc, rfl⟩ := encodes_iff.1 h
  have hskip : ∀ m, keySkip (turned fl c ++ m) fl = (.ok, (turned fl c).length) ↔ SelfEnding fl value := by
    intro m
    rw [keySkip_ok_iff, turned_append, turned_turned, length_turned, componentLen_iff hc]
    refine ⟨fun h => h.1, fun h => ⟨h, ?_⟩⟩
    rw [length_append, length_turned]
    omega
  constructor
  · intro hd
    exact (hskip []).1 (hd.1 [])
  · intro hself
    refine ⟨fun m => (hskip m).2 hself, fun t u he hu hok => ?_⟩
    -- a truncation passed over would be passed over as long with the rest behind it
    have hwhole := (hskip []).2 hself
    rcases hst : keySkip t fl with ⟨st, n⟩
    rw [hst] at hok
    cases hok
    obtain ⟨-, hn⟩ := keySkip_ok_iff.1 hst
    have hmore := keySkip_more hst u
    rw [List.append_nil, he, hmore] at hwhole
    have hlen : n = (t ++ u).length := (Prod.mk.inj hwhole).2
    rw [length_append] at hlen
    have := List.length_pos_iff.2 hu
    omega

theorem Delimits.not_beginning {fl' : KeyFlags} {a : Bytes} (hdir : fl.desc = fl'.desc) (ha : Delimits fl a)
    (hb : Delimits fl' (a ++ r)) : r = [] := by
  have h1 := ha.1 r
  have h2 := hb.1 []
  rw [List.append_nil] at h2
  have hsame : keySkip (a ++ r) fl = keySkip (a ++ r) fl' := by
    unfold keySkip
    rw [hdir]
  rw [hsame, h2] at h1
  have hlen := (Prod.mk.inj h1).2
  rw [length_append] at hlen
  exact List.length_eq_zero_iff.1 (by omega)

/-- A key cut into its components. -/
def splitKey : List KeyFlags → Bytes → Option (List Bytes × Bytes)
  | [], l => some ([], l)
  | fl :: fls, l =>
    match keySkip l fl with
    | (.ok, n) => (splitKey fls (l.drop n)).map (fun p => (l.take n :: p.1, p.2))
    | _ => none

/-- **A composite key splits back** into its components. -/
theorem splitKey_flatten : ∀ {fls : List KeyFlags} {es : List Bytes}, List.Forall₂ Delimits fls es → ∀ m : Bytes,
    splitKey fls (es.flatten ++ m) = some (es, m)
  | [], [], _, m => rfl
  | fl :: fls, e :: es, h, m => by
    cases h with
    | cons he hes =>
      rw [List.flatten_cons, List.append_assoc, splitKey, he.1]
      dsimp only
      rw [List.drop_left, List.take_left, splitKey_flatten hes m]
      rfl

/-! ## Every read is inside -/

def byteAt (fl : KeyFlags) (bytes : Bytes) (i : Nat) : Option Byte :=
  (bytes[i]?).map (fun b => if fl.desc then notByte b else b)

def zeroFrom (fl : KeyFlags) (bytes : Bytes) : Nat → Nat → Option Nat
  | 0, _ => none
  | f + 1, i =>
    if i < bytes.length then do
      let b ← byteAt fl bytes i
      if b.val ≠ 0 then zeroFrom fl bytes f (i + 1) else some i
    else some i

/-- The loop that looks for a string's end: `none` inside is CORRUPT. -/
def stringFrom (fl : KeyFlags) (bytes : Bytes) : Nat → Nat → Option (Option Nat)
  | 0, _ => none
  | f + 1, i =>
    if bytes.length ≤ i + 1 then some none
    else do
      let a ← byteAt fl bytes i
      if a.val = 0 then do
        let b ← byteAt fl bytes (i + 1)
        if b.val = 0 then some (some (i + 2))
        else if b.val ≠ 0xFF then some none
        else stringFrom fl bytes f (i + 2)
      else stringFrom fl bytes f (i + 1)

def lenAt (fl : KeyFlags) (bytes : Bytes) (tag : Nat) : Option (Option Nat) :=
  if tag = KEY_ABSENT ∨ tag = KEY_NEG_INF ∨ tag = KEY_ZERO ∨ tag = KEY_POS_INF ∨ tag = KEY_NAN then some (some 1)
  else if tag = KEY_BOOL then some (some 2)
  else if tag = KEY_NEGATIVE ∨ tag = KEY_POSITIVE then some (some 11)
  else if tag = KEY_MONEY_TYPED then some (some 9)
  else if tag = KEY_MONEY then
    if bytes.length < 2 then some none
    else do
      let a ← byteAt fl bytes 1
      if a.val = 1 then some (some (1 + 1 + 2 + 8))
      else do
        let i ← zeroFrom fl bytes (bytes.length + 1) 1
        if bytes.length ≤ i then some none else some (some (i + 1 + 8))
  else if tag = KEY_DATETIME then
    if bytes.length < 2 then some none
    else do
      let o ← byteAt fl bytes 1
      if 1 < o.val then some none else some (some (2 + (if o.val = 1 then 3 else 6) * 4 + 1))
  else if tag = KEY_STRING then stringFrom fl bytes (bytes.length + 1) 1
  else some none

/-- `gsql_key_skip`, read by read: `none` is a read outside the buffer, or a loop that does not end. -/
def skipAt (bytes : Bytes) (fl : KeyFlags) : Option (KeyStatus × Nat) :=
  if bytes.length < 1 then some (.corrupt, 0)
  else do
    let t ← byteAt fl bytes 0
    match ← lenAt fl bytes t.val with
    | none => some (.corrupt, 0)
    | some n => if bytes.length < n then some (.corrupt, 0) else some (.ok, n)

theorem byteAt_eq (fl : KeyFlags) (bytes : Bytes) (i : Nat) : byteAt fl bytes i = (turned fl bytes)[i]? := by
  unfold byteAt turned
  split
  · rw [List.getElem?_map]
  · cases bytes[i]? <;> rfl

theorem byteAt_some (fl : KeyFlags) (bytes : Bytes) {i : Nat} (h : i < bytes.length) :
    ∃ b, byteAt fl bytes i = some b ∧ (turned fl bytes).drop i = b :: (turned fl bytes).drop (i + 1) := by
  have hi : i < (turned fl bytes).length := by rw [length_turned]; exact h
  exact ⟨_, by rw [byteAt_eq]; exact List.getElem?_eq_getElem hi, List.drop_eq_getElem_cons hi⟩

theorem zeroFrom_eq {fl : KeyFlags} {bytes : Bytes} : ∀ (f i : Nat), i ≤ bytes.length → bytes.length < f + i →
    zeroFrom fl bytes f i = some ((zeroAt i ((turned fl bytes).drop i)).getD bytes.length)
  | 0, i, hi, hf => by omega
  | f + 1, i, hi, hf => by
    rw [zeroFrom]
    split
    · rename_i hlt
      obtain ⟨b, hb, hd⟩ := byteAt_some fl bytes hlt
      rw [hb, hd, zeroAt]
      dsimp only [Option.bind_eq_bind, Option.bind_some]
      by_cases hz : b.val = 0
      · rw [if_neg (not_not.2 hz), if_pos hz]
        rfl
      · rw [if_pos hz, if_neg hz]
        exact zeroFrom_eq f (i + 1) hlt (by omega)
    · have he : i = bytes.length := by omega
      rw [List.drop_eq_nil_of_le (by rw [length_turned]; omega), he]
      rfl

theorem zeroAt_range : ∀ {l : Bytes} {i k : Nat}, zeroAt i l = some k → k < i + l.length
  | b :: l, i, k, h => by
    rw [zeroAt] at h
    rw [length_cons]
    split at h
    · cases h
      omega
    · have := zeroAt_range h
      omega

theorem stringFrom_eq {fl : KeyFlags} {bytes : Bytes} : ∀ (f i : Nat), i ≤ bytes.length → bytes.length < f + i →
    stringFrom fl bytes f i = some (stringEnd i ((turned fl bytes).drop i))
  | 0, i, hi, hf => by omega
  | f + 1, i, hi, hf => by
    rw [stringFrom]
    split
    · rename_i hend
      have hlen : ((turned fl bytes).drop i).length ≤ 1 := by
        rw [List.length_drop, length_turned]
        omega
      generalize (turned fl bytes).drop i = d at hlen
      rcases d with _ | ⟨a, _ | ⟨b, l⟩⟩
      · rfl
      · rfl
      · rw [length_cons, length_cons] at hlen
        omega
    · rename_i hin
      obtain ⟨a, ha, hda⟩ := byteAt_some fl bytes (Nat.lt_of_succ_lt (Nat.lt_of_not_le hin))
      obtain ⟨b, hb, hdb⟩ := byteAt_some fl bytes (Nat.lt_of_not_le hin)
      rw [ha, hb, hda, hdb, stringEnd]
      dsimp only [Option.bind_eq_bind, Option.bind_some]
      by_cases hza : a.val = 0
      · rw [if_pos hza, if_pos hza]
        by_cases hzb : b.val = 0
        · rw [if_pos hzb, if_pos hzb]
        rw [if_neg hzb, if_neg hzb]
        by_cases hff : b.val = 0xFF
        · rw [if_neg (not_not.2 hff), if_pos hff]
          exact stringFrom_eq f (i + 2) (by omega) (by omega)
        · rw [if_pos hff, if_neg hff]
      · rw [if_neg hza, if_neg hza, stringFrom_eq f (i + 1) (by omega) (by omega), hdb]

theorem lenAt_eq {bytes : Bytes} {t : Byte} (h : turned fl bytes = t :: l) :
    lenAt fl bytes t.val = some (componentLen (t :: l)) := by
  have hlen : bytes.length = l.length + 1 := by
    rw [← length_turned fl, h]
    rfl
  unfold lenAt componentLen
  dsimp only
  by_cases h1 : t.val = KEY_ABSENT ∨ t.val = KEY_NEG_INF ∨ t.val = KEY_ZERO ∨ t.val = KEY_POS_INF ∨ t.val = KEY_NAN
  · rw [if_pos h1, if_pos h1]
  rw [if_neg h1, if_neg h1]
  by_cases h2 : t.val = KEY_BOOL
  · rw [if_pos h2, if_pos h2]
  rw [if_neg h2, if_neg h2]
  by_cases h3 : t.val = KEY_NEGATIVE ∨ t.val = KEY_POSITIVE
  · rw [if_pos h3, if_pos h3]
  rw [if_neg h3, if_neg h3]
  by_cases h4 : t.val = KEY_MONEY_TYPED
  · rw [if_pos h4, if_pos h4]
  rw [if_neg h4, if_neg h4]
  by_cases h5 : t.val = KEY_MONEY
  · rw [if_pos h5, if_pos h5]
    rcases l with _ | ⟨a, l⟩
    · rw [if_pos (by rw [hlen]; decide)]
    · rw [length_cons] at hlen
      have ha : byteAt fl bytes 1 = some a := by rw [byteAt_eq, h]; rfl
      rw [if_neg (by omega), ha]
      dsimp only [Option.bind_eq_bind, Option.bind_some]
      by_cases hone : a.val = 1
      · rw [if_pos hone, if_pos hone]
      · rw [if_neg hone, if_neg hone, zeroFrom_eq _ 1 (by omega) (by omega), h, List.drop_one, List.tail_cons]
        dsimp only [Option.bind_some]
        cases hz : zeroAt 1 (a :: l) with
        | none => rw [Option.getD_none, if_pos le_rfl, Option.map_none]
        | some k =>
          have hk := zeroAt_range hz
          rw [length_cons] at hk
          rw [Option.getD_some, if_neg (by omega), Option.map_some]
  rw [if_neg h5, if_neg h5]
  by_cases h6 : t.val = KEY_DATETIME
  · rw [if_pos h6, if_pos h6]
    rcases l with _ | ⟨o, l⟩
    · rw [if_pos (by rw [hlen]; decide)]
    · rw [length_cons] at hlen
      have ho : byteAt fl bytes 1 = some o := by rw [byteAt_eq, h]; rfl
      rw [if_neg (by omega), ho]
      dsimp only [Option.bind_eq_bind, Option.bind_some]
      split <;> rfl
  rw [if_neg h6, if_neg h6]
  by_cases h7 : t.val = KEY_STRING
  · rw [if_pos h7, if_pos h7, stringFrom_eq _ 1 (by omega) (by omega), h, List.drop_one, List.tail_cons]
  · rw [if_neg h7, if_neg h7]

/-- **A skip ends, and reads inside its buffer**, whatever the bytes. -/
theorem skipAt_eq (bytes : Bytes) (fl : KeyFlags) : skipAt bytes fl = some (keySkip bytes fl) := by
  unfold skipAt
  rw [keySkip_eq]
  rcases hl : turned fl bytes with _ | ⟨t, l⟩
  · have hlen : bytes.length = 0 := by rw [← length_turned fl, hl]; rfl
    rw [if_pos (by omega)]
    rfl
  · have hlen : bytes.length = l.length + 1 := by rw [← length_turned fl, hl]; rfl
    have ht : byteAt fl bytes 0 = some t := by rw [byteAt_eq, hl]; rfl
    rw [if_neg (by omega), ht]
    dsimp only [Option.bind_eq_bind, Option.bind_some]
    rw [lenAt_eq hl]
    dsimp only [Option.bind_some]
    cases componentLen (t :: l) with
    | none => rfl
    | some n =>
      dsimp only
      split <;> rfl

/-- **Index keys delimit themselves exactly where their values are as they should be.**  A component is passed over
whatever follows it, and no truncation of it is, if and only if its value does not hold money of any currency whose
letters hold a zero or begin with a one; such components are no beginning of one another in one direction, and a key of
them splits back; and a skip of any bytes ends and reads inside them. -/
theorem keys_delimit {fl : KeyFlags} {value e : Bytes} (h : Encodes fl value e) :
    (Delimits fl e ↔ SelfEnding fl value) ∧
    (SelfEnding fl value → ∀ fl' value' r, fl'.desc = fl.desc → Encodes fl' value' (e ++ r) → SelfEnding fl' value' →
      r = []) ∧
    (∀ l : List (KeyFlags × Bytes × Bytes), (∀ x ∈ l, Encodes x.1 x.2.1 x.2.2 ∧ SelfEnding x.1 x.2.1) →
      ∀ m, splitKey (l.map (·.1)) ((l.map (·.2.2)).flatten ++ m) = some (l.map (·.2.2), m)) ∧
    ∀ bytes fl, skipAt bytes fl = some (keySkip bytes fl) ∧
      ((keySkip bytes fl).1 = .ok → (keySkip bytes fl).2 ≤ bytes.length) := by
  refine ⟨delimits_iff h, fun hself fl' value' r hdir h' hself' => ?_, fun l hl m => ?_,
    fun bytes fl => ⟨skipAt_eq bytes fl, ?_⟩⟩
  · exact ((delimits_iff h).2 hself).not_beginning hdir.symm ((delimits_iff h').2 hself')
  · refine splitKey_flatten (List.forall₂_map_left_iff.2 (List.forall₂_map_right_iff.2 (List.forall₂_same.2 ?_))) m
    exact fun x hx => (delimits_iff (hl x hx).1).2 (hl x hx).2
  · intro hok
    rcases hs : keySkip bytes fl with ⟨st, n⟩
    rw [hs] at hok
    cases hok
    exact (keySkip_ok_iff.1 hs).2

/-- A text with a zero byte in it. -/
theorem keys_delimit_text :
    let e := [byte KEY_STRING, byte 65, byte 0, byte 0xFF, byte 0, byte 0]
    (Delimits ⟨false, false⟩ e ↔ SelfEnding ⟨false, false⟩ [byte SER_STRING, byte 2, byte 65, byte 0]) ∧
    (SelfEnding ⟨false, false⟩ [byte SER_STRING, byte 2, byte 65, byte 0] → ∀ fl' value' r, fl'.desc = false →
      Encodes fl' value' (e ++ r) → SelfEnding fl' value' → r = []) ∧
    (∀ l : List (KeyFlags × Bytes × Bytes), (∀ x ∈ l, Encodes x.1 x.2.1 x.2.2 ∧ SelfEnding x.1 x.2.1) →
      ∀ m, splitKey (l.map (·.1)) ((l.map (·.2.2)).flatten ++ m) = some (l.map (·.2.2), m)) ∧
    ∀ bytes fl, skipAt bytes fl = some (keySkip bytes fl) ∧
      ((keySkip bytes fl).1 = .ok → (keySkip bytes fl).2 ≤ bytes.length) :=
  keys_delimit ⟨4, by decide⟩

def zeroLetter : Bytes := byte SER_MONEY :: (List.replicate 8 (byte 0) ++ [byte 2, byte 0, byte 0, byte 1, byte 0])

/-- **Money whose letters hold a zero** is not passed over. -/
theorem zeroLetter_short : ¬ ∀ (fl : KeyFlags) (value e : Bytes), Encodes fl value e →
    ∀ m, keySkip (e ++ m) fl = (.ok, e.length) := by
  intro h
  have he : Encodes ⟨false, false⟩ zeroLetter
      ([byte KEY_MONEY, byte 0, byte 0, byte 0x80] ++ List.replicate 7 (byte 0)) := ⟨14, by decide⟩
  exact absurd (h _ _ _ he []) (by decide)

end Key
end Gbasic
