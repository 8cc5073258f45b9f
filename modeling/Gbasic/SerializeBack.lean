import Gbasic.SerializeSafe
/-!
# SerializeBack — what comes back

What is read from a value's bytes is the value as it was sent (`Value.sent`): money in the currency its code names here,
a datetime as its two bytes say, a function where its name reaches one.  It is the value itself where no money's code
has been given to another number.
-/
namespace Gbasic
namespace Eval

open Key (SER_NULL SER_UNKNOWN SER_BOOL SER_NUMBER SER_STRING SER_ARRAY SER_RECORD SER_DATETIME SER_DURATION SER_MONEY
  SER_FILE SER_DIR SER_ACTOR SER_FUNCTION SER_REGEX)
open List (length_append append_assoc append_nil)

/-! ## Reading from the front -/

structure Front (r : SerReader) (l : Bytes) : Prop where
  inside : r.Inside
  ok : r.ok = true
  version : r.version = SER_VERSION
  rest : r.data.drop r.pos = l

def Takes {α : Type} (m : Rd α) (x : Bytes) (a : α) : Prop :=
  ∀ r l, Front r (x ++ l) → ∃ r', m r = some (a, r') ∧ Front r' l

def Spoils {α : Type} (m : Rd α) (x : Bytes) : Prop :=
  ∀ r l, Front r (x ++ l) → ∃ a r', m r = some (a, r') ∧ r'.ok = false

section
variable {α β : Type} {P : Program} {cs : Currencies} {x y l : Bytes} {r : SerReader} {a : α} {b : β}

theorem Front.room (h : Front r (x ++ l)) : r.pos + x.length ≤ r.data.length := by
  have hlen := congrArg List.length h.rest
  rw [List.length_drop, length_append] at hlen
  have := h.inside.pos
  omega

theorem Front.size (h : Front r (x ++ l)) : x.length < 2 ^ 63 := by
  have := h.room
  have := h.inside.size
  omega

theorem Front.past (h : Front r (x ++ l)) : Front (r.past x.length) l where
  inside := ⟨h.room, h.inside.size⟩
  ok := h.ok
  version := h.version
  rest := by
    show r.data.drop (r.pos + x.length) = l
    rw [← List.drop_drop, h.rest, List.drop_left]

theorem Front.next (h : Front r (x ++ l)) : (r.data.drop r.pos).take x.length = x := by
  rw [h.rest, List.take_left]

theorem takes_pure (a : α) : Takes (pure a : Rd α) [] a := fun r _ h => ⟨r, rfl, h⟩

theorem Takes.bind {p : Rd α} {q : α → Rd β} (hp : Takes p x a) (hq : Takes (q a) y b) :
    Takes (p >>= q) (x ++ y) b := by
  intro r l h
  rw [append_assoc] at h
  obtain ⟨r₁, h₁, hf₁⟩ := hp r _ h
  obtain ⟨r₂, h₂, hf₂⟩ := hq r₁ l hf₁
  exact ⟨r₂, (bind_some h₁ q).trans h₂, hf₂⟩

theorem Takes.thru {p : Rd α} {q : α → Rd β} (hp : Takes p [] a) (hq : Takes (q a) y b) : Takes (p >>= q) y b :=
  hp.bind hq

theorem Takes.last {p : Rd α} {q : α → Rd β} (hp : Takes p x a) (hq : Takes (q a) [] b) : Takes (p >>= q) x b := by
  have h := hp.bind hq
  rwa [append_nil] at h

theorem Takes.spoils {p : Rd α} {q : α → Rd β} (hp : Takes p x a) (hq : Spoils (q a) y) :
    Spoils (p >>= q) (x ++ y) := by
  intro r l h
  rw [append_assoc] at h
  obtain ⟨r₁, h₁, hf₁⟩ := hp r _ h
  obtain ⟨c, r₂, h₂, hbad⟩ := hq r₁ l hf₁
  exact ⟨c, r₂, (bind_some h₁ q).trans h₂, hbad⟩

theorem Takes.spoilsLast {p : Rd α} {q : α → Rd β} (hp : Takes p x a) (hq : Spoils (q a) []) : Spoils (p >>= q) x := by
  have h := hp.spoils hq
  rwa [append_nil] at h

theorem Takes.thruSpoils {p : Rd α} {q : α → Rd β} (hp : Takes p [] a) (hq : Spoils (q a) y) : Spoils (p >>= q) y :=
  hp.spoils hq

theorem Spoils.bind {p : Rd α} {q : α → Rd β} (hp : Spoils p x)
    (hq : ∀ a r, r.ok = false → ∃ b r', q a r = some (b, r') ∧ r'.ok = false) : Spoils (p >>= q) x := by
  intro r l h
  obtain ⟨a, r₁, h₁, hbad⟩ := hp r l h
  obtain ⟨b, r₂, h₂, hbad₂⟩ := hq a r₁ hbad
  exact ⟨b, r₂, (bind_some h₁ q).trans h₂, hbad₂⟩

theorem spoils_corrupt (a : α) : Spoils (corrupt a) [] := fun _ _ _ => ⟨a, _, rfl, rfl⟩

theorem takes_serOk : Takes serOk [] true := fun r l h => ⟨r, by rw [serOk, h.ok], h⟩

theorem takes_serVersion : Takes serVersion [] SER_VERSION := fun r l h => ⟨r, by rw [serVersion, h.version], h⟩

theorem takes_serreadBytes (x : Bytes) : Takes (serreadBytes x.length) x (some x) := by
  intro r l h
  refine ⟨_, ?_, h.past⟩
  rw [serreadBytes_run h.inside h.ok h.room, h.next]

theorem takes_serreadU8 (b : Byte) : Takes serreadU8 [b] b := (takes_serreadBytes [b]).last (takes_pure b)

theorem takes_tag (n : Nat) : Takes serreadU8 (serTag n) (byte n) := takes_serreadU8 _

theorem takes_serreadLe {w v : Nat} (hv : v < 256 ^ w) : Takes (serreadLe w) (lePut w v) v := by
  have hb := takes_serreadBytes (lePut w v)
  rw [length_lePut] at hb
  refine hb.last ?_
  rw [Option.getD_some, leNat_lePut w v hv]
  exact takes_pure v

theorem takes_serreadUlebFrom : ∀ (n shift acc v : Nat) (x : Bytes), ulebGet n shift acc x = some (v, []) →
    Takes (serreadUlebFrom n shift acc) x v
  | 0, _, _, _, _, h => by cases h
  | _ + 1, _, _, _, [], h => by cases h
  | n + 1, shift, acc, v, b :: x, h => by
    rw [ulebGet] at h
    refine (takes_serreadU8 b).bind (takes_serOk.thru ?_)
    rw [if_neg (by simp)]
    split_ifs at h with hbad hlast
    · simp only [Option.some.injEq, Prod.mk.injEq] at h
      obtain ⟨rfl, rfl⟩ := h
      rw [if_neg hbad]
      dsimp only
      rw [if_pos hlast]
      exact takes_pure _
    · rw [if_neg hbad]
      dsimp only
      rw [if_neg hlast]
      exact takes_serreadUlebFrom n (shift + 7) _ v x h

theorem takes_serreadCount {n : Nat} (hn : n < 2 ^ 64) : Takes serreadCount (uleb n) n := by
  have h := ulebGet_uleb n [] hn
  rw [append_nil] at h
  refine takes_serVersion.thru ?_
  rw [if_pos (by decide)]
  exact takes_serreadUlebFrom 10 0 0 n _ h

theorem takes_serreadBlob (x : Bytes) : Takes serreadBlob (serBlob x) (some x) := by
  intro r l h
  have hsize : x.length < 2 ^ 64 := by
    have := h.size
    rw [serBlob, length_append] at this
    omega
  unfold serBlob at h
  rw [append_assoc] at h
  obtain ⟨r₁, h₁, hf⟩ := takes_serreadCount hsize r _ h
  refine ⟨_, ?_, hf.past⟩
  rw [serreadBlob, bind_some h₁, bind_some (serFits_run hf.inside hf.ok hf.room), if_neg (by simp),
    bind_some (serSlice_run hf.inside hf.room), hf.next]
  rfl

theorem takes_serreadI32 (v : BitVec 32) : Takes serreadI32 (serI32 v) v := by
  refine (takes_serreadLe v.isLt).last ?_
  rw [BitVec.ofNat_toNat, BitVec.setWidth_eq]
  exact takes_pure v

end

/-! ## What is sent -/

def DateTime.sent (dt : DateTime) : Option DateTime :=
  if PREC_YEAR ≤ dt.precision.toNat % 256 ∧ dt.precision.toNat % 256 ≤ PREC_SECOND then
    some { dt with
      timeOnly := if dt.timeOnly ≠ 0 then 1 else 0, precision := BitVec.ofNat 32 (dt.precision.toNat % 256) }
  else none

def MoneyValue.sent (cs : Currencies) (m : MoneyValue) : MoneyValue :=
  { m with currency := localCurrency cs ((currencyAlphaOf cs m.currency).getD []) m.currency }

def consSent {α β : Type} (f : α → β) (o : Option α) (os : Option (List β)) : Option (List β) :=
  match o, os with
  | some v, some vs => some (f v :: vs)
  | _, _ => none

mutual

def Value.sent {P : Program} (cs : Currencies) : Value P → Option (Value P)
  | .array items => (sentItems cs items).map .array
  | .record fields => (sentFields cs fields).map .record
  | .datetime dt => dt.sent.map .datetime
  | .money m => some (.money (m.sent cs))
  | .function name library => if P.resolves library name then some (.function name library) else none
  | .handle _ => none
  | .null => some .null
  | .unknown => some .unknown
  | .bool b => some (.bool b)
  | .number n => some (.number n)
  | .string s => some (.string s)
  | .duration d => some (.duration d)
  | .file path => some (.file path)
  | .dir path => some (.dir path)
  | .regex r => some (.regex r)

def sentItems {P : Program} (cs : Currencies) : List (Value P) → Option (List (Value P))
  | [] => some []
  | v :: vs => consSent (fun v => v) (v.sent cs) (sentItems cs vs)

def sentFields {P : Program} (cs : Currencies) : List (Bytes × Value P) → Option (List (Bytes × Value P))
  | [] => some []
  | (name, v) :: fs => consSent (fun v => (name, v)) (v.sent cs) (sentFields cs fs)

end

def Gives {α : Type} (m : Rd α) (x : Bytes) : Option α → Prop
  | some a => Takes m x a
  | none => Spoils m x

section
variable {P : Program} {cs : Currencies} {read : Rd (Value P)}

/-! ## Every kind -/

theorem cast_toNat {w : Nat} (v : BitVec w) : ((v.toNat : Nat) : BitVec w) = v := by simp

theorem toNat_lt_pow {w : Nat} (v : BitVec (8 * w)) : v.toNat < 256 ^ w := by
  have h := v.isLt
  rw [pow_mul] at h
  exact h

theorem takes_deserNumber (n : Number) : Takes (deserNumber P) (serNumber n) (.number n) := by
  refine takes_serVersion.thru ?_
  rw [if_pos (by decide)]
  cases n with
  | exact n =>
    refine (takes_tag 1).bind ((takes_serreadLe (toNat_lt_pow (w := 8) n)).last (takes_serOk.thru ?_))
    simpa [byte] using takes_pure (Value.number (P := P) (.exact n))
  | inexact bits =>
    refine (takes_tag 0).bind ((takes_serreadLe (toNat_lt_pow (w := 8) bits)).last (takes_serOk.thru ?_))
    simpa [byte] using takes_pure (Value.number (P := P) (.inexact bits))

theorem gives_deserDateTime (dt : DateTime) :
    Gives (deserDateTime P) (serDateTime dt) (dt.sent.map Value.datetime) := by
  have htime : (byte (if dt.timeOnly ≠ 0 then 1 else 0)).val = if dt.timeOnly ≠ 0 then 1 else 0 := by
    split_ifs <;> rfl
  have hbits : (((if dt.timeOnly ≠ 0 then 1 else 0 : Nat)) : BitVec 32) = if dt.timeOnly ≠ 0 then 1 else 0 := by
    split_ifs <;> rfl
  have hle : (if dt.timeOnly ≠ 0 then 1 else 0) ≤ 1 := by split_ifs <;> omega
  by_cases hprec : PREC_YEAR ≤ dt.precision.toNat % 256 ∧ dt.precision.toNat % 256 ≤ PREC_SECOND
  · rw [DateTime.sent, if_pos hprec]
    refine takes_serVersion.thru ?_
    rw [if_pos (by decide)]
    simp only [serDateTime, append_assoc]
    refine (takes_serreadI32 _).bind ((takes_serreadI32 _).bind
      ((takes_serreadI32 _).bind ((takes_serreadI32 _).bind ?_)))
    refine (takes_serreadI32 _).bind ((takes_serreadI32 _).bind ((takes_tag _).bind ((takes_tag _).last ?_)))
    refine takes_serOk.thru ?_
    have hgood : ¬ (true = false ∨ 1 < (if dt.timeOnly ≠ 0 then 1 else 0) ∨ dt.precision.toNat % 256 < PREC_YEAR ∨
        PREC_SECOND < dt.precision.toNat % 256) := by
      rintro (h | h)
      · cases h
      · omega
    rw [htime, byte_val, if_neg hgood, hbits]
    exact takes_pure _
  · rw [DateTime.sent, if_neg hprec]
    refine takes_serVersion.thruSpoils ?_
    rw [if_pos (by decide)]
    simp only [serDateTime, append_assoc]
    refine (takes_serreadI32 _).spoils ((takes_serreadI32 _).spoils ((takes_serreadI32 _).spoils ?_))
    refine (takes_serreadI32 _).spoils ((takes_serreadI32 _).spoils ((takes_serreadI32 _).spoils ?_))
    refine (takes_tag _).spoils ((takes_tag _).spoilsLast (takes_serOk.thruSpoils ?_))
    rw [htime, byte_val, if_pos (.inr (by omega))]
    exact spoils_corrupt _

theorem takes_deserDuration (d : Duration) : Takes (deserDuration P) (serDuration d) (.duration d) := by
  refine takes_serVersion.thru ?_
  rw [if_pos (by decide)]
  simp only [serDuration, append_assoc]
  refine (takes_serreadI32 _).bind ((takes_serreadI32 _).bind
    ((takes_serreadI32 _).bind ((takes_serreadI32 _).bind ?_)))
  refine (takes_serreadI32 _).bind ((takes_serreadI32 _).bind ((takes_serreadI32 _).last (takes_serOk.thru ?_)))
  rw [if_neg (by simp)]
  exact takes_pure _

theorem takes_deserMoney (hcs : cs.Ok) (m : MoneyValue) :
    Takes (deserMoney P cs) (serMoney cs m) (.money (m.sent cs)) := by
  have halpha : ((currencyAlphaOf cs m.currency).getD []).length < 8 := by
    rcases ha : currencyAlphaOf cs m.currency with _ | alpha
    · simp
    · exact (currencyAlphaOf_letters hcs ha).2.1
  have hlen : (byte ((currencyAlphaOf cs m.currency).getD []).length).val =
      ((currencyAlphaOf cs m.currency).getD []).length := by
    rw [byte_val]
    omega
  have hexp : (byte m.exponent.toNat).val = m.exponent.toNat := by
    rw [byte_val]
    exact Nat.mod_eq_of_lt m.exponent.isLt
  refine takes_serVersion.thru ?_
  rw [if_pos (by decide)]
  simp only [serMoney, serCode, append_assoc]
  refine (takes_serreadLe (toNat_lt_pow (w := 8) m.units)).bind ((takes_tag _).bind ?_)
  refine (takes_serreadLe (toNat_lt_pow (w := 2) m.currency)).bind ((takes_tag _).bind (takes_serOk.thru ?_))
  rw [if_neg (by simp [-byte_val, hlen, halpha]), hlen, hexp]
  refine (takes_serreadBytes _).last ?_
  rw [cast_toNat, cast_toNat, cast_toNat]
  exact takes_pure _

theorem regexParseFlags_text (f : RegexFlags) : regexParseFlags ⟨false, false, false⟩ f.text = some f := by
  rcases f with ⟨_ | _, _ | _, _ | _⟩ <;> rfl

theorem takes_deserRegex (r : RegexValue P) :
    Takes (deserRegex P) (serBlob r.pattern ++ serBlob r.flags.text) (.regex r) := by
  refine (takes_serreadBlob r.pattern).bind ((takes_serreadBlob r.flags.text).last ?_)
  have hcompile : regexCompile P r.pattern r.flags.text = some r := by
    rw [regexCompile, regexParseFlags_text]
    exact dif_pos r.compiled
  dsimp only
  rw [hcompile]
  exact takes_pure _

theorem CString.of_bytes (c : CString) : CString.of c.bytes = c := by
  obtain ⟨l, hl⟩ := c
  simp [CString.of, cString_eq hl]

theorem takes_deserString {tag : Nat} (s : Bytes) {v : Value P}
    (hv : v = if tag = SER_STRING then .string s else if tag = SER_FILE then .file (.of s) else .dir (.of s)) :
    Takes (deserString P tag) (serBlob s) v := by
  refine (takes_serreadBlob s).last ?_
  subst hv
  dsimp only
  split_ifs
  · exact takes_pure _
  · exact takes_pure _
  · exact takes_pure _

theorem gives_resolved (name : CString) (library : Option CString) :
    Gives (do
      if (← serOk) = false then return .null
      else if P.resolves library name then return .function name library
      else corrupt .null : Rd (Value P)) []
      (if P.resolves library name then some (.function name library) else none) := by
  by_cases hres : P.resolves library name = true
  · rw [if_pos hres, if_pos hres]
    refine takes_serOk.thru ?_
    rw [if_neg (by simp)]
    exact takes_pure _
  · rw [if_neg hres, if_neg hres]
    refine takes_serOk.thruSpoils ?_
    rw [if_neg (by simp)]
    exact spoils_corrupt _

theorem Gives.after {α β : Type} {p : Rd α} {q : α → Rd β} {x y : Bytes} {a : α} {o : Option β} (hp : Takes p x a)
    (hq : Gives (q a) y o) : Gives (p >>= q) (x ++ y) o := by
  cases o with
  | none => exact hp.spoils hq
  | some b => exact hp.bind hq

theorem Gives.thru {α β : Type} {p : Rd α} {q : α → Rd β} {y : Bytes} {a : α} {o : Option β} (hp : Takes p [] a)
    (hq : Gives (q a) y o) : Gives (p >>= q) y o := Gives.after hp hq

theorem Gives.afterAll {α β : Type} {p : Rd α} {q : α → Rd β} {x : Bytes} {a : α} {o : Option β} (hp : Takes p x a)
    (hq : Gives (q a) [] o) : Gives (p >>= q) x o := by
  have h := Gives.after hp hq
  rwa [append_nil] at h

theorem gives_deserFunction (name : CString) (library : Option CString) :
    Gives (deserFunction P) (serFunction name library)
      (if P.resolves library name then some (.function name library) else none) := by
  refine Gives.after (takes_serreadBlob name.bytes) ?_
  dsimp only
  cases library with
  | none =>
    refine Gives.afterAll (takes_tag 0) (Gives.thru takes_serOk ?_)
    rw [if_neg (by simp)]
    refine Gives.thru (takes_pure none) ?_
    rw [Option.map_none, CString.of_bytes]
    exact gives_resolved name none
  | some l =>
    refine Gives.after (takes_tag 1) (Gives.thru takes_serOk ?_)
    rw [if_pos (by simp)]
    refine Gives.afterAll (takes_serreadBlob l.bytes) ?_
    rw [Option.map_some, CString.of_bytes, CString.of_bytes]
    exact gives_resolved name (some l)

/-! ## Values in values -/

theorem Gives.counted {β : Type} {n : Nat} {x : Bytes} {q : Nat → Rd β} {o : Option β} {bad : β} (hn : n ≤ x.length)
    (hq : Gives (q n) x o) :
    Gives (do
      let count ← serreadCount
      if (← serFits count) = false then corrupt bad else q count) (uleb n ++ x) o := by
  have hstep : ∀ r l, Front r (uleb n ++ x ++ l) → ∃ r', Front r' (x ++ l) ∧ (do
      let count ← serreadCount
      if (← serFits count) = false then corrupt bad else q count) r = q n r' := by
    intro r l h
    rw [append_assoc] at h
    have hcount : n < 2 ^ 64 := by
      have hsize := Front.size (x := uleb n ++ x) (by rw [append_assoc]; exact h)
      rw [length_append] at hsize
      omega
    obtain ⟨r', h', hf⟩ := takes_serreadCount hcount r _ h
    have hroom := hf.room
    refine ⟨r', hf, ?_⟩
    rw [bind_some h', bind_some (serFits_run hf.inside hf.ok (by omega)), if_neg (by simp)]
  cases o with
  | none | some =>
    intro r l h
    obtain ⟨r', hf, he⟩ := hstep r l h
    rw [he]
    exact hq r' l hf

theorem Gives.parts {α β : Type} {x : Bytes} {p : Rd (Option α)} {q : Option α → Rd β} {o : Option α} {f : α → β}
    {bad : β} (hnone : q none = pure bad) (hsome : ∀ a, q (some a) = pure (f a)) (hp : Gives p x (o.map some)) :
    Gives (p >>= q) x (o.map f) := by
  cases o with
  | none =>
    refine Spoils.bind hp (fun a r hbad => ?_)
    cases a with
    | none => exact ⟨bad, r, by rw [hnone]; rfl, hbad⟩
    | some a => exact ⟨f a, r, by rw [hsome]; rfl, hbad⟩
  | some a =>
    refine Takes.last hp ?_
    rw [hsome]
    exact takes_pure _

theorem Gives.cons {α β : Type} {x y : Bytes} {p : Rd α} {q : Rd (Option (List β))} {o : Option α} {f : α → β}
    {os : Option (List β)} (hp : Gives p x o) (hq : Gives q y (os.map some)) :
    Gives (do
      let v ← p
      if (← serOk) = false then return none
      else return (← q).map (f v :: ·)) (x ++ y) ((consSent f o os).map some) := by
  cases o with
  | none =>
    intro r l h
    rw [append_assoc] at h
    obtain ⟨v, r', hv, hbad⟩ := hp r _ h
    refine ⟨none, r', ?_, hbad⟩
    rw [bind_some hv, bind_some (show serOk r' = some (false, r') by rw [serOk, hbad])]
    rfl
  | some v =>
    refine Gives.after hp (Gives.thru takes_serOk ?_)
    rw [if_neg (by simp)]
    cases os with
    | none =>
      refine Spoils.bind hq (fun a r hbad => ⟨_, r, rfl, hbad⟩)
    | some vs => exact Takes.last hq (takes_pure _)

/-! ## Every value -/

theorem one_le_serializeValue {v : Value P} {depth : Nat} {b : Bytes} (h : serializeValue cs v depth = .ok b) :
    1 ≤ b.length := by
  unfold serializeValue at h
  split_ifs at h
  cases v with
  | handle k => cases h
  | array | record =>
    dsimp only at h
    split at h <;> cases h
    simp [serTag]
  | _ =>
    cases h
    simp [serTag]

theorem length_le_serializeItems : ∀ {items : List (Value P)} {depth : Nat} {b : Bytes},
    serializeItems cs items depth = .ok b → items.length ≤ b.length
  | [], _, _, _ => Nat.zero_le _
  | v :: vs, depth, b, h => by
    rw [serializeItems] at h
    split at h
    · cases h
    rename_i bv hv
    split at h <;> cases h
    rename_i bs hvs
    have h1 := one_le_serializeValue hv
    have h2 := length_le_serializeItems hvs
    rw [List.length_cons, length_append]
    omega

theorem length_le_serializeFields : ∀ {fields : List (Bytes × Value P)} {depth : Nat} {b : Bytes},
    serializeFields cs fields depth = .ok b → fields.length ≤ b.length
  | [], _, _, _ => Nat.zero_le _
  | (name, v) :: fs, depth, b, h => by
    rw [serializeFields] at h
    split at h
    · cases h
    rename_i bv hv
    split at h <;> cases h
    rename_i bs hfs
    have h1 := one_le_serializeValue hv
    have h2 := length_le_serializeFields hfs
    rw [List.length_cons, length_append, length_append]
    omega

theorem gives_tagged {tag left : Nat} {x : Bytes} {o : Option (Value P)} (htag : tag < 256)
    (hk : Gives (deserKind P cs (deserializeValue P cs left) tag) x o) :
    Gives (deserializeValue P cs (left + 1)) (serTag tag ++ x) o := by
  unfold deserializeValue
  refine Gives.thru takes_serOk ?_
  rw [if_neg (by simp)]
  refine Gives.after (takes_tag tag) (Gives.thru takes_serOk ?_)
  rw [if_neg (by simp), byte_val, Nat.mod_eq_of_lt htag]
  exact hk

mutual

/-- **What is read from a value's bytes is the value as it was sent**, at any depth that it was written at. -/
theorem gives_value (hcs : cs.Ok) : ∀ {v : Value P} {depth left : Nat} {b : Bytes}, serializeValue cs v depth = .ok b →
    left + depth = SER_MAX_DEPTH + 1 → Gives (deserializeValue P cs left) b (v.sent cs)
  | v, depth, 0, b, h, hd => by
    rw [serializeValue.eq_def, if_pos (by omega)] at h
    cases h
  | .null, depth, left + 1, b, h, hd => by
    rw [serializeValue, if_neg (by omega)] at h
    cases h
    exact gives_tagged (x := []) (by decide) (takes_pure _)
  | .unknown, depth, left + 1, b, h, hd => by
    rw [serializeValue, if_neg (by omega)] at h
    cases h
    exact gives_tagged (x := []) (by decide) (takes_pure _)
  | .bool v, depth, left + 1, b, h, hd => by
    rw [serializeValue, if_neg (by omega)] at h
    cases h
    refine gives_tagged (by decide) ((takes_tag _).last ?_)
    cases v
    · exact takes_pure _
    · exact takes_pure _
  | .number n, depth, left + 1, b, h, hd => by
    rw [serializeValue, if_neg (by omega)] at h
    cases h
    exact gives_tagged (by decide) (takes_deserNumber n)
  | .string s, depth, left + 1, b, h, hd => by
    rw [serializeValue, if_neg (by omega)] at h
    cases h
    exact gives_tagged (by decide) (takes_deserString s rfl)
  | .array items, depth, left + 1, b, h, hd => by
    rw [serializeValue, if_neg (by omega)] at h
    split at h <;> cases h
    rename_i bs hitems
    have hinner := gives_items hcs hitems (show left + (depth + 1) = SER_MAX_DEPTH + 1 by omega)
    rw [append_assoc, Value.sent]
    refine gives_tagged (by decide) (Gives.counted (length_le_serializeItems hitems) ?_)
    exact Gives.parts rfl (fun _ => rfl) hinner
  | .record fields, depth, left + 1, b, h, hd => by
    rw [serializeValue, if_neg (by omega)] at h
    split at h <;> cases h
    rename_i bs hfields
    have hinner := gives_fields hcs hfields (show left + (depth + 1) = SER_MAX_DEPTH + 1 by omega)
    rw [append_assoc, Value.sent]
    refine gives_tagged (by decide) (Gives.counted (length_le_serializeFields hfields) ?_)
    exact Gives.parts rfl (fun _ => rfl) hinner
  | .datetime dt, depth, left + 1, b, h, hd => by
    rw [serializeValue, if_neg (by omega)] at h
    cases h
    exact gives_tagged (by decide) (gives_deserDateTime dt)
  | .duration d, depth, left + 1, b, h, hd => by
    rw [serializeValue, if_neg (by omega)] at h
    cases h
    exact gives_tagged (by decide) (takes_deserDuration d)
  | .money m, depth, left + 1, b, h, hd => by
    rw [serializeValue, if_neg (by omega)] at h
    cases h
    exact gives_tagged (by decide) (takes_deserMoney hcs m)
  | .file path, depth, left + 1, b, h, hd => by
    rw [serializeValue, if_neg (by omega)] at h
    cases h
    refine gives_tagged (by decide) (takes_deserString path.bytes ?_)
    rw [if_neg (by decide), if_pos rfl, CString.of_bytes]
  | .dir path, depth, left + 1, b, h, hd => by
    rw [serializeValue, if_neg (by omega)] at h
    cases h
    refine gives_tagged (by decide) (takes_deserString path.bytes ?_)
    rw [if_neg (by decide), if_neg (by decide), CString.of_bytes]
  | .regex r, depth, left + 1, b, h, hd => by
    rw [serializeValue, if_neg (by omega)] at h
    cases h
    rw [append_assoc]
    exact gives_tagged (by decide) (takes_deserRegex r)
  | .function name library, depth, left + 1, b, h, hd => by
    rw [serializeValue, if_neg (by omega)] at h
    cases h
    exact gives_tagged (by decide) (gives_deserFunction name library)
  | .handle k, depth, left + 1, b, h, hd => by
    rw [serializeValue, if_neg (by omega)] at h
    cases h

theorem gives_items (hcs : cs.Ok) : ∀ {items : List (Value P)} {depth left : Nat} {b : Bytes},
    serializeItems cs items depth = .ok b → left + depth = SER_MAX_DEPTH + 1 →
    Gives (deserItems P (deserializeValue P cs left) items.length) b ((sentItems cs items).map some)
  | [], depth, left, b, h, hd => by
    rw [serializeItems] at h
    cases h
    exact takes_pure _
  | v :: vs, depth, left, b, h, hd => by
    rw [serializeItems] at h
    split at h
    · cases h
    rename_i bv hv
    split at h <;> cases h
    rename_i bs hvs
    exact Gives.cons (f := fun v => v) (gives_value hcs hv hd) (gives_items hcs hvs hd)

theorem gives_fields (hcs : cs.Ok) : ∀ {fields : List (Bytes × Value P)} {depth left : Nat} {b : Bytes},
    serializeFields cs fields depth = .ok b → left + depth = SER_MAX_DEPTH + 1 →
    Gives (deserFields P (deserializeValue P cs left) fields.length) b ((sentFields cs fields).map some)
  | [], depth, left, b, h, hd => by
    rw [serializeFields] at h
    cases h
    exact takes_pure _
  | (name, v) :: fs, depth, left, b, h, hd => by
    rw [serializeFields] at h
    split at h
    · cases h
    rename_i bv hv
    split at h <;> cases h
    rename_i bs hfs
    rw [append_assoc]
    refine Gives.after (takes_serreadBlob name) ?_
    exact Gives.cons (f := fun v => (name, v)) (gives_value hcs hv hd) (gives_fields hcs hfs hd)

end

/-- **The bytes of a value are answered by the value as it was sent**, or found corrupt. -/
theorem deserialize_serialize (hcs : cs.Ok) {v : Value P} {bytes : Bytes} (h : serialize cs v = .ok bytes)
    (hsize : bytes.length < 2 ^ 63) :
    deserialize P cs bytes = some (match v.sent cs with | some w => .ok w | none => .error corruptData) := by
  unfold serialize at h
  split at h <;> cases h
  rename_i b hb
  have hdata : SER_MAGIC ++ serTag SER_VERSION ++ b = byte 103 :: byte 66 :: byte 83 :: byte 3 :: b := by
    have hm : SER_MAGIC = [byte 103, byte 66, byte 83] := by decide
    rw [hm]
    rfl
  rw [hdata] at hsize ⊢
  have hlen : (byte 103 :: byte 66 :: byte 83 :: byte 3 :: b).length = b.length + 4 := rfl
  have hstart : Front ⟨byte 103 :: byte 66 :: byte 83 :: byte 3 :: b, 4, true, SER_VERSION⟩ (b ++ []) := by
    refine ⟨⟨?_, hsize⟩, rfl, rfl, ?_⟩
    · rw [hlen]
      exact Nat.le_add_left ..
    · rw [append_nil]
      rfl
  have h0 := header_byte 0 (by omega) hsize
  have h1 := header_byte 1 (by omega) hsize
  have h2 := header_byte 2 (by omega) hsize
  have h3 := header_byte 3 (by omega) hsize
  have hgives := gives_value hcs hb (show SER_MAX_DEPTH + 1 + 0 = SER_MAX_DEPTH + 1 from rfl)
  unfold deserialize
  rw [if_neg (by omega)]
  simp only [h0, h1, h2, h3, Option.bind_eq_bind, Option.bind_some, List.getElem_cons_zero, List.getElem_cons_succ]
  rw [if_neg (by decide)]
  revert hgives
  cases v.sent cs with
  | none =>
    intro hgives
    obtain ⟨w, r, hrun, hbad⟩ := hgives _ _ hstart
    rw [show (byte 3).val = SER_VERSION from rfl, hrun]
    simp [hbad]
  | some w =>
    intro hgives
    obtain ⟨r, hrun, hf⟩ := hgives _ _ hstart
    have hend : r.pos = r.data.length := by
      have hrest := congrArg List.length hf.rest
      rw [List.length_drop, List.length_nil] at hrest
      have := hf.inside.pos
      omega
    rw [show (byte 3).val = SER_VERSION from rfl, hrun]
    simp [hend, hf.ok]

end
end Eval
end Gbasic
