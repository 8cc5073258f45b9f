import Gbasic.KeyBack
/-!
# KeyRound — reading a key back is inverse to writing it

What an encoder accepts is one value's bytes (`Reads`).  Its component, in either direction and whatever follows it,
reads back as a value of the same component that the language finds equal: exact where it is a whole number, the same
double where it is another, and unknown where it is an absence.
-/
namespace Gbasic
namespace Key

/-! ## What an encoder accepts -/

/-- One value at the front of some bytes.  A string's length may be spelled longer than it need be. -/
def Reads (value : Bytes) (v : Value) (rest : Bytes) : Prop :=
  match v with
  | .string s => ∃ l, value = byte SER_STRING :: l ∧ ulebGet 10 0 0 l = some (s.bytes.length, s.bytes ++ rest)
  | v => value = serialize v ++ rest

theorem leGet_eq : ∀ {w : Nat} {l r : Bytes} {v : Nat}, leGet w l = some (v, r) → l = lePut w v ++ r ∧ v < 256 ^ w
  | 0, l, r, v, h => by
    cases h
    exact ⟨rfl, by norm_num⟩
  | w + 1, [], r, v, h => by cases h
  | w + 1, b :: l, r, v, h => by
    rw [leGet] at h
    obtain ⟨⟨v', r'⟩, hg, hv⟩ := Option.map_eq_some_iff.1 h
    cases hv
    obtain ⟨rfl, hlt⟩ := leGet_eq hg
    have hb : byte (b.val + 256 * v') = b := by
      apply Fin.ext
      rw [byte_val]
      omega
    have hd : (b.val + 256 * v') / 256 = v' := by omega
    rw [lePut, hb, hd]
    refine ⟨rfl, ?_⟩
    rw [pow_succ]
    omega

theorem leFields_eq : ∀ {n : Nat} {l r : Bytes} {f : List Nat}, leFields n l = some (f, r) →
    l = (f.map (BitVec.ofNat 32)).flatMap (fun v => lePut 4 v.toNat) ++ r
  | 0, l, r, f, h => by
    cases h
    rfl
  | n + 1, l, r, f, h => by
    rw [leFields] at h
    split at h
    · cases h
    rename_i v l' hv
    obtain ⟨⟨f', r'⟩, hf, he⟩ := Option.map_eq_some_iff.1 h
    cases he
    obtain ⟨rfl, hlt⟩ := leGet_eq hv
    have hval : (BitVec.ofNat 32 v).toNat = v := by
      rw [BitVec.toNat_ofNat]
      exact Nat.mod_eq_of_lt hlt
    rw [List.map_cons, List.flatMap_cons, hval, List.append_assoc, ← leFields_eq hf]

theorem ulebGet_lt : ∀ {n shift acc : Nat} {l r : Bytes} {v : Nat}, shift + 7 * n = 70 → acc < 2 ^ shift →
    ulebGet n shift acc l = some (v, r) → v < 2 ^ 64
  | 0, _, _, _, _, _, _, _, h => by cases h
  | _ + 1, _, _, [], _, _, _, _, h => by cases h
  | n + 1, shift, acc, b :: l, r, v, hs, hacc, h => by
    rw [ulebGet] at h
    have hmod : b.val % 128 < 128 := Nat.mod_lt _ (by decide)
    have hnext : acc + b.val % 128 * 2 ^ shift < 2 ^ (shift + 7) := by
      rw [pow_add]
      nlinarith
    split at h
    · cases h
    rename_i hlast
    dsimp only at h
    split at h
    · cases h
      by_cases h63 : shift = 63
      · subst h63
        have : b.val % 128 < 2 := by
          by_contra hcon
          exact hlast ⟨rfl, by omega⟩
        omega
      · exact hnext.trans_le (Nat.pow_le_pow_right (by decide) (by omega))
    · exact ulebGet_lt (by omega) hnext h

theorem reads_number {l c r : Bytes} (h : keyNumber l = .ok (c, r)) :
    ∃ n : Num, l = n.bytes ++ r := by
  unfold keyNumber at h
  split at h
  · cases h
  rename_i exact l₁ hexact
  split at h
  · cases h
  rename_i bits l₂ hbits
  obtain ⟨b, rfl, rfl⟩ := leGet_one_eq hexact
  obtain ⟨rfl, hlt⟩ := leGet_eq hbits
  have hval : (BitVec.ofNat 64 bits).toNat = bits := by
    rw [BitVec.toNat_ofNat]
    exact Nat.mod_eq_of_lt hlt
  have hbyte : b = byte b.val := (byte_of_val b).symm
  by_cases hbad : 1 < b.val
  · rw [if_pos hbad] at h
    cases h
  rw [if_neg hbad] at h
  have hr : l₂ = r := by
    dsimp only at h
    split_ifs at h <;> cases h <;> rfl
  subst hr
  by_cases hone : b.val = 1
  · refine ⟨.exact (BitVec.ofNat 64 bits), ?_⟩
    rw [Num.bytes, hval, hbyte, hone]
    rfl
  · refine ⟨.inexact (BitVec.ofNat 64 bits), ?_⟩
    rw [Num.bytes, hval, hbyte, show b.val = 0 by omega]
    rfl

theorem reads_datetime {l c r : Bytes} (h : keyDatetime l = .ok (c, r)) :
    ∃ d : DateTime, l = d.bytes ++ r := by
  unfold keyDatetime at h
  split at h
  · cases h
  rename_i f l₁ hf
  split at h
  · cases h
  rename_i timeOnly l₂ htime
  split at h
  · cases h
  rename_i precision l₃ hprec
  split at h
  · cases h
  rename_i hnamed
  cases h
  have hlen := leFields_length hf
  have hfields := leFields_eq hf
  obtain ⟨t, rfl, rfl⟩ := leGet_one_eq htime
  obtain ⟨p, rfl, rfl⟩ := leGet_one_eq hprec
  rcases f with _ | ⟨y, _ | ⟨mo, _ | ⟨d, _ | ⟨hh, _ | ⟨mi, _ | ⟨s, _ | ⟨x, f⟩⟩⟩⟩⟩⟩⟩ <;>
    simp only [List.length_cons, List.length_nil] at hlen
  · omega
  · omega
  · omega
  · omega
  · omega
  · omega
  · have ht : byte (decide (t.val = 1)).toNat = t := by
      apply Fin.ext
      rw [byte_val]
      by_cases h1 : t.val = 1
      · rw [decide_eq_true h1, h1]
        rfl
      · rw [decide_eq_false h1, show t.val = 0 by omega]
        rfl
    refine ⟨⟨.ofNat 32 y, .ofNat 32 mo, .ofNat 32 d, .ofNat 32 hh, .ofNat 32 mi, .ofNat 32 s, decide (t.val = 1), p.val,
      by omega⟩, ?_⟩
    rw [hfields, DateTime.bytes, List.append_assoc]
    dsimp only
    rw [ht, byte_of_val]
    rfl
  · omega

/-- **What an encoder accepts is a value**, and the component the value's. -/
theorem component_reads {value c r : Bytes} {fl : KeyFlags} (h : component value fl = .ok (c, r))
    (hm : (value.headD 0).val ≠ SER_MONEY) : ∃ v, Reads value v r ∧ (∀ m, v ≠ .money m) ∧ c = v.code fl := by
  -- bytes as `serialize` writes them have the component of their value
  have hread : ∀ v : Value, value = serialize v ++ r → c = v.code fl := by
    intro v hv
    rw [hv, component_serialize] at h
    cases h
    rfl
  unfold component at h
  split at h
  · cases h
  rename_i tag l htag
  obtain ⟨b, rfl, rfl⟩ := leGet_one_eq htag
  have hb : b = byte b.val := (byte_of_val b).symm
  by_cases hnull : b.val = SER_NULL ∨ b.val = SER_UNKNOWN
  · rw [if_pos hnull] at h
    cases h
    rcases hnull with hn | hn
    · have hv : b :: r = serialize .null ++ r := by
        rw [hb, hn]
        rfl
      exact ⟨.null, hv, by simp, hread _ hv⟩
    · have hv : b :: r = serialize .unknown ++ r := by
        rw [hb, hn]
        rfl
      exact ⟨.unknown, hv, by simp, hread _ hv⟩
  rw [if_neg hnull] at h
  by_cases hbool : b.val = SER_BOOL
  · rw [if_pos hbool] at h
    split at h
    · cases h
    rename_i x l₁ hx
    obtain ⟨a, rfl, rfl⟩ := leGet_one_eq hx
    split at h
    · cases h
    rename_i ha
    cases h
    have ha' : byte (decide (a.val = 1)).toNat = a := by
      apply Fin.ext
      rw [byte_val]
      by_cases h1 : a.val = 1
      · rw [decide_eq_true h1, h1]
        rfl
      · rw [decide_eq_false h1, show a.val = 0 by omega]
        rfl
    have hv : b :: a :: r = serialize (.bool (decide (a.val = 1))) ++ r := by
      rw [serialize, ha', hb, hbool]
      rfl
    exact ⟨.bool (decide (a.val = 1)), hv, by simp, hread _ hv⟩
  rw [if_neg hbool] at h
  by_cases hnumber : b.val = SER_NUMBER
  · rw [if_pos hnumber] at h
    obtain ⟨n, rfl⟩ := reads_number h
    have hv : b :: (n.bytes ++ r) = serialize (.number n) ++ r := by
      rw [serialize, hb, hnumber]
      rfl
    exact ⟨.number n, hv, by simp, hread _ hv⟩
  rw [if_neg hnumber] at h
  by_cases hstring : b.val = SER_STRING
  · rw [if_pos hstring] at h
    unfold keyString at h
    split at h
    · cases h
    rename_i n l₁ hn
    split at h
    · cases h
    rename_i hlen
    cases h
    have htake : (l₁.take n).length = n := by
      rw [List.length_take]
      omega
    have hshort : (l₁.take n).length < 2 ^ 64 := by
      rw [htake]
      exact ulebGet_lt (by norm_num) (by norm_num) hn
    refine ⟨.string ⟨l₁.take n, hshort⟩, ⟨l, by rw [hb, hstring], ?_⟩, by simp, rfl⟩
    dsimp only
    rw [htake, List.take_append_drop, hn]
  have hmoney : ¬ b.val = SER_MONEY := hm
  rw [if_neg hstring, if_neg hmoney] at h
  by_cases hdate : b.val = SER_DATETIME
  · rw [if_pos hdate] at h
    obtain ⟨d, rfl⟩ := reads_datetime h
    have hv : b :: (d.bytes ++ r) = serialize (.datetime d) ++ r := by
      rw [serialize, hb, hdate]
      rfl
    exact ⟨.datetime d, hv, by simp, hread _ hv⟩
  rw [if_neg hdate] at h
  split at h <;> cases h

/-! ## Strings and datetimes -/

theorem unescape_escape (m : Bytes) : ∀ s : Bytes, unescape (escape s ++ (byte 0 :: byte 0 :: m)) = s
  | [] => rfl
  | b :: s => by
    rw [escape]
    by_cases hb : b.val = 0
    · have hzero : byte 0 = b := by rw [← hb, byte_of_val]
      rw [if_pos hb, List.cons_append, List.cons_append, unescape, if_pos (by rfl), if_neg (by decide),
        unescape_escape m s, hzero]
    · rw [if_neg hb, List.cons_append]
      rcases hl : escape s ++ (byte 0 :: byte 0 :: m) with _ | ⟨c, l⟩
      · exact absurd hl (by simp)
      · rw [unescape, if_neg hb, ← hl, unescape_escape m s]

theorem fieldsOf_signed (m : Bytes) : ∀ f : List (BitVec 32),
    fieldsOf f.length (f.flatMap (fun v => putSigned 4 v.toNat) ++ m) = (f.flatMap (fun v => lePut 4 v.toNat), m)
  | [] => rfl
  | v :: f => by
    have hv := v.isLt
    have hlt : (v.toNat + 2 ^ 31) % 2 ^ 32 < 256 ^ 4 := Nat.mod_lt _ (by decide)
    have hback : (beNat (putSigned 4 v.toNat) + 2 ^ 32 - 2 ^ 31) % 2 ^ 32 = v.toNat := by
      rw [putSigned, beNat_bePut 4 _ hlt]
      omega
    rw [List.flatMap_cons, List.flatMap_cons, List.length_cons, fieldsOf, List.append_assoc,
      List.take_left' (length_putSigned 4 _), List.drop_left' (length_putSigned 4 _), hback, fieldsOf_signed m f]

def DateTime.timed (d : DateTime) : DateTime := if d.timeOnly then { d with year := 0, month := 0, day := 0 } else d

theorem datetimeOf_dateCode (d : DateTime) : datetimeOf (dateCode d) = byte SER_DATETIME :: d.timed.bytes := by
  obtain ⟨year, month, day, hour, minute, second, timeOnly, precision, named⟩ := d
  have hzero : ¬ (byte 0).val ≠ 0 := by decide
  have hone : (byte 1).val ≠ 0 := by decide
  cases timeOnly with
  | false =>
    have h := fieldsOf_signed [byte precision] [year, month, day, hour, minute, second]
    rw [show [year, month, day, hour, minute, second].length = 6 from rfl] at h
    have hcode : dateCode ⟨year, month, day, hour, minute, second, false, precision, named⟩ = byte 0 ::
      ([year, month, day, hour, minute, second].flatMap (fun v => putSigned 4 v.toNat) ++ [byte precision]) := rfl
    rw [hcode, datetimeOf, List.headD_cons, List.tail_cons, if_neg hzero, if_neg hzero, h]
    rfl
  | true =>
    have h := fieldsOf_signed [byte precision] [hour, minute, second]
    rw [show [hour, minute, second].length = 3 from rfl] at h
    have hcode : dateCode ⟨year, month, day, hour, minute, second, true, precision, named⟩ = byte 1 ::
      ([hour, minute, second].flatMap (fun v => putSigned 4 v.toNat) ++ [byte precision]) := rfl
    have hdate : List.replicate 12 (0 : Byte) = [0, 0, 0].flatMap (fun v : BitVec 32 => lePut 4 v.toNat) := by decide
    rw [hcode, datetimeOf, List.headD_cons, List.tail_cons, if_pos hone, if_pos hone, h, hdate, DateTime.timed,
      if_pos rfl, DateTime.bytes, ← List.flatMap_append]
    rfl

/-! ## Values -/

/-- A value as the language has it. -/
def Value.said : Value → Same.Value
  | .null => .null
  | .unknown => .unknown
  | .bool b => .bool b
  | .number n => .number n.said
  | .string s => .string s.bytes
  | .money m => .money ⟨m.units, m.numeric, m.exponent.val⟩
  | .datetime d => .datetime ⟨d.year, d.month, d.day, d.hour, d.minute, d.second, if d.timeOnly then 1 else 0,
      d.precision⟩

/-- What a value comes back as from its key. -/
structure ComesBack (v w : Value) : Prop where
  absent : v = .null ∨ v = .unknown → w = .unknown
  equal : v ≠ .null → v ≠ .unknown → (∀ n, v = .number n → Same.key n.said ≠ .nan) →
    Same.evalEquals v.said w.said = .bool true
  nan : ∀ n, v = .number n → Same.key n.said = .nan → w = .number (.inexact 0x7ff8000000000000)
  whole : ∀ n (i : BitVec 64), v = .number n → Same.key n.said = .finite i.toInt → w = .number (.exact i)
  double : ∀ n q, v = .number n → Same.key n.said = .finite q → (∀ i : BitVec 64, q ≠ i.toInt) → w = v

theorem code_of_place {n w : Num} (h : w.place = n.place) : w.shape.code = n.shape.code := by
  have hs := Shape.settle_code w.shape_ok n.shape_ok
  rw [← Num.place_shape, ← Num.place_shape, h, cmp_same] at hs
  exact eq_of_settle_eq hs

theorem Num.Back.key {n w : Num} (h : n.Back w) (hn : Same.key n.said ≠ .nan) : Same.key w.said = Same.key n.said := by
  by_cases hi : ∃ i : BitVec 64, Same.key n.said = .finite i.toInt
  · obtain ⟨i, hi⟩ := hi
    rw [h.whole i hi, hi]
    rfl
  · rw [h.same hn (fun i he => hi ⟨i, he⟩)]

theorem equals_of_storage {x y : Same.Value} (hk : x.kind = y.kind) (hx : x.plain = true) (hy : y.plain = true)
    (hs : ¬ Same.Split x y) (h : Same.storageEqual x y = true) : Same.evalEquals x y = .bool true := by
  rw [(Same.evalEquals_iff hk hx hy).2 hs, h]

theorem ComesBack.number {n w : Num} (h : n.Back w) : ComesBack (.number n) (.number w) where
  absent ha := by rcases ha with ha | ha <;> cases ha
  equal _ _ hnan := by
    have hn := hnan n rfl
    have hkey := h.key hn
    have hplain : ∀ m : Eval.Number, Same.key m ≠ .nan → (Same.Value.number m).plain = true := by
      intro m hm
      rw [Same.Value.plain, Bool.not_eq_true', ← Bool.not_eq_true, Same.numberIsNan_iff]
      exact hm
    refine equals_of_storage rfl (hplain _ hn) (hplain _ (hkey.symm ▸ hn)) (by simp [Same.Split, Value.said]) ?_
    rw [Value.said, Value.said, Same.storageEqual, Same.numberSameValue_iff, hkey]
  nan m hm hk := by
    cases hm
    rw [h.nan hk]
  whole m i hm hk := by
    cases hm
    rw [h.whole i hk]
  double m q hm hk hq := by
    cases hm
    rw [h.same (by rw [hk]; simp) (fun i hi => hq i (by rw [hk] at hi; injection hi))]

theorem ComesBack.other {v w : Value} (ha : v ≠ .null ∧ v ≠ .unknown) (hn : ∀ n, v ≠ .number n)
    (h : Same.evalEquals v.said w.said = .bool true) : ComesBack v w where
  absent := by
    rintro (hv | hv)
    · exact absurd hv ha.1
    · exact absurd hv ha.2
  equal _ _ _ := h
  nan n hv := absurd hv (hn n)
  whole n _ hv := absurd hv (hn n)
  double n _ hv := absurd hv (hn n)

theorem ComesBack.unknown {v : Value} (h : v = .null ∨ v = .unknown) : ComesBack v .unknown where
  absent _ := rfl
  equal h₁ h₂ := by
    rcases h with h | h
    · exact absurd h h₁
    · exact absurd h h₂
  nan n hv := by rcases h with rfl | rfl <;> cases hv
  whole n _ hv := by rcases h with rfl | rfl <;> cases hv
  double n _ hv := by rcases h with rfl | rfl <;> cases hv

theorem dateCode_timed (d : DateTime) : dateCode d.timed = dateCode d := by
  obtain ⟨year, month, day, hour, minute, second, timeOnly, precision, named⟩ := d
  cases timeOnly <;> rfl

theorem said_timed (d : DateTime) :
    Same.evalEquals (Value.datetime d).said (Value.datetime d.timed).said = .bool true := by
  rw [Value.said, Value.said, Same.evalEquals, Same.Answer.bool.injEq, decide_eq_true_eq, Same.datetimeCompareExact_eq]
  obtain ⟨year, month, day, hour, minute, second, timeOnly, precision, named⟩ := d
  cases timeOnly with
  | false => exact ⟨Iff.rfl, fun _ => ⟨rfl, rfl, rfl⟩, rfl, rfl, rfl, rfl⟩
  | true => exact ⟨Iff.rfl, fun h => absurd h (show ¬ (1 : BitVec 32) = 0 by decide), rfl, rfl, rfl, rfl⟩

/-- **A value's component reads back** as a value of that component. -/
theorem value_back (v : Value) (fl : KeyFlags) (hm : ∀ m, v ≠ .money m) :
    ∃ w, valueOf (v.code fl) = some (serialize w) ∧ w.code fl = v.code fl ∧ ComesBack v w := by
  cases v with
  | null => exact ⟨.unknown, rfl, rfl, .unknown (Or.inl rfl)⟩
  | unknown => exact ⟨.unknown, rfl, rfl, .unknown (Or.inr rfl)⟩
  | bool b =>
    refine ⟨.bool b, ?_, rfl, .other ⟨by simp, by simp⟩ (by simp) ?_⟩
    · cases b <;> rfl
    · refine equals_of_storage rfl rfl rfl (by simp [Same.Split, Value.said]) ?_
      rw [Value.said, Same.storageEqual, decide_eq_true rfl]
  | number n =>
    obtain ⟨w, hw, hback⟩ := number_back n
    exact ⟨.number w, hw, code_of_place hback.place, .number hback⟩
  | string s =>
    refine ⟨.string s, ?_, rfl, .other ⟨by simp, by simp⟩ (by simp) ?_⟩
    · rw [Value.code, show valueOf (byte KEY_STRING :: (escape s.bytes ++ [byte 0, byte 0])) =
        some (byte SER_STRING :: (uleb (unescape (escape s.bytes ++ [byte 0, byte 0])).length ++
          unescape (escape s.bytes ++ [byte 0, byte 0]))) from rfl, unescape_escape]
      rfl
    · refine equals_of_storage rfl rfl rfl (by simp [Same.Split, Value.said]) ?_
      rw [Value.said, Same.storageEqual, decide_eq_true rfl]
  | money m => exact absurd rfl (hm m)
  | datetime d =>
    refine ⟨.datetime d.timed, ?_, ?_, .other ⟨by simp, by simp⟩ (by simp) (said_timed d)⟩
    · rw [Value.code, show valueOf (byte KEY_DATETIME :: dateCode d) = some (datetimeOf (dateCode d)) from rfl,
        datetimeOf_dateCode]
      rfl
    · rw [Value.code, dateCode_timed]
      rfl

/-- **Reading a key back is inverse to writing it**, up to the key's own equality: an absence comes back unknown. -/
theorem key_reads_back {fl : KeyFlags} {value e : Bytes} (h : Encodes fl value e)
    (hm : (value.headD 0).val ≠ SER_MONEY) :
    ∃ v rest w, Reads value v rest ∧
      (∀ out m, keyValue out (e ++ m) fl = (.ok, out ++ serialize w, e.length)) ∧
      (∀ key, keyAppend key (serialize w) fl = (.ok, key ++ e, (serialize w).length)) ∧ ComesBack v w := by
  have hself : SelfEnding fl value := fun htag => absurd htag hm
  have hskip := ((delimits_iff h).2 hself).1
  obtain ⟨c, r, hc, rfl⟩ := encodes_iff.1 h
  obtain ⟨v, hreads, hnot, rfl⟩ := component_reads hc hm
  obtain ⟨w, hw, hcode, hback⟩ := value_back v fl hnot
  refine ⟨v, r, w, hreads, fun out m => ?_, fun key => ?_, hback⟩
  · have htake : (turned fl (turned fl (v.code fl) ++ m)).take (turned fl (v.code fl)).length = v.code fl := by
      rw [turned_append, turned_turned, length_turned, List.take_left]
    rw [keyValue, hskip m]
    dsimp only
    rw [htake, hw]
  · rw [keyAppend_serialize, Value.keyed, hcode]
    rfl

/-- A third, descending, with more of a key behind it. -/
theorem key_reads_back_third :
    ∃ v rest w, Reads (serialize (.number (.inexact 0x3fd5555555555555))) v rest ∧
      (∀ out m, keyValue out ((Value.number (.inexact 0x3fd5555555555555)).keyed ⟨true, false⟩ ++ m) ⟨true, false⟩ =
        (.ok, out ++ serialize w, ((Value.number (.inexact 0x3fd5555555555555)).keyed ⟨true, false⟩).length)) ∧
      (∀ key, keyAppend key (serialize w) ⟨true, false⟩ =
        (.ok, key ++ (Value.number (.inexact 0x3fd5555555555555)).keyed ⟨true, false⟩, (serialize w).length)) ∧
      ComesBack v w :=
  key_reads_back ⟨_, keyAppend_serialize [] (.number (.inexact 0x3fd5555555555555)) ⟨true, false⟩⟩ (by decide)

/-- **`nothing` comes back as unknown**, which the language does not find equal to it. -/
theorem nothing_reads_unknown :
    Encodes ⟨false, false⟩ (serialize .null) [byte KEY_ABSENT] ∧
      keyValue [] [byte KEY_ABSENT] ⟨false, false⟩ = (.ok, serialize .unknown, 1) ∧
      Same.evalEquals Value.null.said Value.unknown.said ≠ .bool true ∧
      Same.storageEqual Value.null.said Value.unknown.said = false := by
  refine ⟨⟨_, keyAppend_serialize [] .null ⟨false, false⟩⟩, rfl, ?_, ?_⟩
  · rw [Value.said, Value.said, Same.evalEquals]
    · simp
    · simp
  · rw [Value.said, Value.said]
    simp [Same.storageEqual]

end Key
end Gbasic
