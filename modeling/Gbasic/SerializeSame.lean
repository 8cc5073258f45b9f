import Gbasic.SerializeBack
/-!
# SerializeSame — which values come back the same

Money of a built-in currency whose code was registered anew is written under that code, and read as the currency
registered: every other value comes back as it was.
-/
namespace Gbasic
namespace Eval

/-- A datetime its two bytes can say. -/
def DateTime.Kept (dt : DateTime) : Prop :=
  (dt.timeOnly = 0 ∨ dt.timeOnly = 1) ∧ PREC_YEAR ≤ dt.precision.toNat ∧ dt.precision.toNat ≤ PREC_SECOND

instance (dt : DateTime) : Decidable dt.Kept := by
  unfold DateTime.Kept
  infer_instance

mutual

/-- No money in a value is of a currency whose code has been given to another, every datetime has a precision and a
whole flag, and every function's name reaches one. -/
def Value.Kept {P : Program} (cs : Currencies) : Value P → Prop
  | .array items => keptItems cs items
  | .record fields => keptFields cs fields
  | .datetime dt => dt.Kept
  | .money m => ¬ cs.Shadowed m.currency
  | .function name library => P.resolves library name = true
  | .handle _ => False
  | .null | .unknown | .bool _ | .number _ | .string _ | .duration _ | .file _ | .dir _ | .regex _ => True

def keptItems {P : Program} (cs : Currencies) : List (Value P) → Prop
  | [] => True
  | v :: vs => v.Kept cs ∧ keptItems cs vs

def keptFields {P : Program} (cs : Currencies) : List (Bytes × Value P) → Prop
  | [] => True
  | (_, v) :: fs => v.Kept cs ∧ keptFields cs fs

end

section
variable {P : Program} {cs : Currencies}

theorem localCurrency_iff (hcs : cs.Ok) (numeric : BitVec 16) :
    localCurrency cs ((currencyAlphaOf cs numeric).getD []) numeric = numeric ↔ ¬ cs.Shadowed numeric := by
  rcases ha : currencyAlphaOf cs numeric with _ | alpha
  · -- a number without a name is sent as it is, and is of no built-in currency
    have hnot : ¬ cs.Shadowed numeric := by
      rintro ⟨hfree, d, hd, hnum, -⟩
      unfold currencyAlphaOf at ha
      split at ha
      · cases ha
      · rw [Option.map_eq_none_iff, List.find?_eq_none] at ha
        exact ha d hd (by simpa using hnum)
    simp [localCurrency, hnot]
  · obtain ⟨hne, -, hends⟩ := currencyAlphaOf_letters hcs ha
    obtain ⟨n, e, hist, hfind, hiff⟩ := currencyFind_alphaOf hcs ha
    rw [Option.getD_some, localCurrency, if_neg hne, cString_eq hends, hfind]
    exact hiff

theorem MoneyValue.sent_eq_iff (hcs : cs.Ok) (m : MoneyValue) : m.sent cs = m ↔ ¬ cs.Shadowed m.currency := by
  rw [← localCurrency_iff hcs, MoneyValue.sent]
  constructor
  · exact congrArg MoneyValue.currency
  · intro h
    rw [h]

theorem DateTime.sent_eq_iff (dt : DateTime) : dt.sent = some dt ↔ dt.Kept := by
  obtain ⟨year, month, day, hour, minute, second, timeOnly, precision⟩ := dt
  have hbound := precision.isLt
  rw [DateTime.sent, DateTime.Kept]
  dsimp only
  constructor
  · intro h
    by_cases hprec : PREC_YEAR ≤ precision.toNat % 256 ∧ precision.toNat % 256 ≤ PREC_SECOND
    · rw [if_pos hprec] at h
      simp only [Option.some.injEq, DateTime.mk.injEq, true_and] at h
      obtain ⟨htime, hp⟩ := h
      have hlow : precision.toNat % 256 = precision.toNat := by
        have hp := congrArg BitVec.toNat hp
        rw [BitVec.toNat_ofNat] at hp
        omega
      rw [hlow] at hprec
      refine ⟨?_, hprec⟩
      split_ifs at htime with h0
      · exact .inr htime.symm
      · exact .inl (not_not.1 h0)
    · rw [if_neg hprec] at h
      cases h
  · rintro ⟨htime, hlo, hhi⟩
    have hlow : precision.toNat % 256 = precision.toNat := by
      rw [PREC_SECOND] at hhi
      omega
    rw [hlow, if_pos ⟨hlo, hhi⟩, BitVec.ofNat_toNat, BitVec.setWidth_eq]
    rcases htime with rfl | rfl <;> rfl

theorem consSent_eq_some {α β : Type} {f : α → β} {o : Option α} {os : Option (List β)} {w : β} {ws : List β} :
    consSent f o os = some (w :: ws) ↔ o.map f = some w ∧ os = some ws := by
  cases o <;> cases os <;> simp [consSent]

mutual

/-- **What comes back is the value exactly where it is kept.** -/
theorem sent_eq_iff (hcs : cs.Ok) : ∀ v : Value P, v.sent cs = some v ↔ v.Kept cs
  | .array items => by simp [Value.sent, Value.Kept, sentItems_eq_iff hcs items]
  | .record fields => by simp [Value.sent, Value.Kept, sentFields_eq_iff hcs fields]
  | .datetime dt => by simp [Value.sent, Value.Kept, DateTime.sent_eq_iff]
  | .money m => by simp [Value.sent, Value.Kept, MoneyValue.sent_eq_iff hcs]
  | .function name library => by simp [Value.sent, Value.Kept]
  | .handle _ => by simp [Value.sent, Value.Kept]
  | .null | .unknown | .bool _ | .number _ | .string _ | .duration _ | .file _ | .dir _ | .regex _ => by
    simp [Value.sent, Value.Kept]

theorem sentItems_eq_iff (hcs : cs.Ok) : ∀ vs : List (Value P), sentItems cs vs = some vs ↔ keptItems cs vs
  | [] => by simp [sentItems, keptItems]
  | v :: vs => by
    rw [sentItems, keptItems, consSent_eq_some, sentItems_eq_iff hcs vs, ← sent_eq_iff hcs v]
    simp

theorem sentFields_eq_iff (hcs : cs.Ok) :
    ∀ fs : List (Bytes × Value P), sentFields cs fs = some fs ↔ keptFields cs fs
  | [] => by simp [sentFields, keptFields]
  | (name, v) :: fs => by
    rw [sentFields, keptFields, consSent_eq_some, sentFields_eq_iff hcs fs, ← sent_eq_iff hcs v]
    simp

end

end

/-! ## Dollars registered anew -/

def wholeProgram : Program := ⟨fun _ _ => true, fun _ _ => true⟩

/-- The dollar's code registered under a number of its own. -/
def dollarsAnew : Currencies := ⟨[⟨text "USD", 1000, 2, false⟩], 1001⟩

theorem register_dollars : moneyRegister .start (text "USD") (some 2) = .ok (1000, dollarsAnew) := rfl

theorem reached_dollarsAnew : Reached dollarsAnew := .register .start (text "USD") (some 2) register_dollars

/-- **A serialized value comes back the same exactly where it is kept, and any bytes are answered from inside.** -/
theorem serialized_comes_back {P : Program} {cs : Currencies} (hcs : Reached cs) :
    (∀ (v : Value P) bytes, serialize cs v = .ok bytes → bytes.length < 2 ^ 63 →
      (deserialize P cs bytes = some (.ok v) ↔ v.Kept cs)) ∧
    ∀ data : Bytes, data.length < 2 ^ 63 →
      ∃ a, deserialize P cs data = some a ∧ ∀ v, a = .ok v → ReadWhole P cs data v := by
  refine ⟨fun v bytes h hsize => ?_, fun data hsize => deserialize_answers hsize⟩
  rw [deserialize_serialize hcs.ok h hsize, ← sent_eq_iff hcs.ok v]
  cases v.sent cs with
  | none => simp
  | some w => simp

theorem serialized_comes_back_euros :
    ∃ bytes, serialize dollarsAnew (.money (P := wholeProgram) ⟨50000, 978, 2⟩) = .ok bytes ∧
      deserialize wholeProgram dollarsAnew bytes = some (.ok (.money ⟨50000, 978, 2⟩)) := by
  refine ⟨_, rfl, ((serialized_comes_back reached_dollarsAnew).1 _ _ rfl (by decide)).2 ?_⟩
  rw [Value.Kept]
  decide +kernel

/-- **Dollars sent where their code was registered anew come back in the currency registered.** -/
theorem dollars_come_back_anew :
    Reached dollarsAnew ∧ ∃ bytes, serialize dollarsAnew (.money (P := wholeProgram) ⟨50000, 840, 2⟩) = .ok bytes ∧
      bytes.length < 2 ^ 63 ∧ deserialize wholeProgram dollarsAnew bytes = some (.ok (.money ⟨50000, 1000, 2⟩)) ∧
      deserialize wholeProgram dollarsAnew bytes ≠ some (.ok (.money ⟨50000, 840, 2⟩)) := by
  have hrun : ∃ bytes, serialize dollarsAnew (.money (P := wholeProgram) ⟨50000, 840, 2⟩) = .ok bytes ∧
      bytes.length < 2 ^ 63 ∧ deserialize wholeProgram dollarsAnew bytes = some (.ok (.money ⟨50000, 1000, 2⟩)) :=
    ⟨_, rfl, by decide, rfl⟩
  obtain ⟨bytes, hser, hlen, hdes⟩ := hrun
  refine ⟨reached_dollarsAnew, bytes, hser, hlen, hdes, ?_⟩
  rw [hdes]
  simp

end Eval
end Gbasic
