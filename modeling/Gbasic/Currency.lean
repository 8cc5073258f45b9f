import Gbasic.Bytes
/-!
# Currency — the currencies a program knows

The built-in table, and over it the currencies registered at run time, which are asked first.  A code registered anew
has a number of its own, so two numbers may share a name; a retired one keeps its number.
-/
namespace Gbasic
namespace Eval

abbrev Bytes := List Byte

variable {alpha : Bytes}

structure Raise where
  message : Bytes
  code : Nat
  library : String
  deriving DecidableEq

structure CurrencyDef where
  alpha : Bytes
  numeric : BitVec 16
  exponent : Nat
  deriving DecidableEq

def currencyCodes : List (String × Nat × Nat) :=
  [("AED", 784, 2), ("AFN", 971, 2), ("ALL", 8, 2), ("AMD", 51, 2), ("AOA", 973, 2), ("ARS", 32, 2), ("AUD", 36, 2),
    ("AWG", 533, 2), ("AZN", 944, 2), ("BAM", 977, 2), ("BBD", 52, 2), ("BDT", 50, 2), ("BHD", 48, 3), ("BIF", 108, 0),
    ("BMD", 60, 2), ("BND", 96, 2), ("BOB", 68, 2), ("BOV", 984, 2), ("BRL", 986, 2), ("BSD", 44, 2), ("BTN", 64, 2),
    ("BWP", 72, 2), ("BYN", 933, 2), ("BZD", 84, 2), ("CAD", 124, 2), ("CDF", 976, 2), ("CHE", 947, 2), ("CHF", 756, 2),
    ("CHW", 948, 2), ("CLF", 990, 4), ("CLP", 152, 0), ("CNY", 156, 2), ("COP", 170, 2), ("COU", 970, 2),
    ("CRC", 188, 2), ("CUP", 192, 2), ("CVE", 132, 2), ("CZK", 203, 2), ("DJF", 262, 0), ("DKK", 208, 2),
    ("DOP", 214, 2), ("DZD", 12, 2), ("EGP", 818, 2), ("ERN", 232, 2), ("ETB", 230, 2), ("EUR", 978, 2),
    ("FJD", 242, 2), ("FKP", 238, 2), ("GBP", 826, 2), ("GEL", 981, 2), ("GHS", 936, 2), ("GIP", 292, 2),
    ("GMD", 270, 2), ("GNF", 324, 0), ("GTQ", 320, 2), ("GYD", 328, 2), ("HKD", 344, 2), ("HNL", 340, 2),
    ("HTG", 332, 2), ("HUF", 348, 2), ("IDR", 360, 2), ("ILS", 376, 2), ("INR", 356, 2), ("IQD", 368, 3),
    ("IRR", 364, 2), ("ISK", 352, 0), ("JMD", 388, 2), ("JOD", 400, 3), ("JPY", 392, 0), ("KES", 404, 2),
    ("KGS", 417, 2), ("KHR", 116, 2), ("KMF", 174, 0), ("KPW", 408, 2), ("KRW", 410, 0), ("KWD", 414, 3),
    ("KYD", 136, 2), ("KZT", 398, 2), ("LAK", 418, 2), ("LBP", 422, 2), ("LKR", 144, 2), ("LRD", 430, 2),
    ("LSL", 426, 2), ("LYD", 434, 3), ("MAD", 504, 2), ("MDL", 498, 2), ("MGA", 969, 2), ("MKD", 807, 2),
    ("MMK", 104, 2), ("MNT", 496, 2), ("MOP", 446, 2), ("MRU", 929, 2), ("MUR", 480, 2), ("MVR", 462, 2),
    ("MWK", 454, 2), ("MXN", 484, 2), ("MXV", 979, 2), ("MYR", 458, 2), ("MZN", 943, 2), ("NAD", 516, 2),
    ("NGN", 566, 2), ("NIO", 558, 2), ("NOK", 578, 2), ("NPR", 524, 2), ("NZD", 554, 2), ("OMR", 512, 3),
    ("PAB", 590, 2), ("PEN", 604, 2), ("PGK", 598, 2), ("PHP", 608, 2), ("PKR", 586, 2), ("PLN", 985, 2),
    ("PYG", 600, 0), ("QAR", 634, 2), ("RON", 946, 2), ("RSD", 941, 2), ("RUB", 643, 2), ("RWF", 646, 0),
    ("SAR", 682, 2), ("SBD", 90, 2), ("SCR", 690, 2), ("SDG", 938, 2), ("SEK", 752, 2), ("SGD", 702, 2),
    ("SHP", 654, 2), ("SLE", 925, 2), ("SOS", 706, 2), ("SRD", 968, 2), ("SSP", 728, 2), ("STN", 930, 2),
    ("SVC", 222, 2), ("SYP", 760, 2), ("SZL", 748, 2), ("THB", 764, 2), ("TJS", 972, 2), ("TMT", 934, 2),
    ("TND", 788, 3), ("TOP", 776, 2), ("TRY", 949, 2), ("TTD", 780, 2), ("TWD", 901, 2), ("TZS", 834, 2),
    ("UAH", 980, 2), ("UGX", 800, 0), ("USD", 840, 2), ("USN", 997, 2), ("UYI", 940, 0), ("UYU", 858, 2),
    ("UYW", 927, 4), ("UZS", 860, 2), ("VED", 926, 2), ("VES", 928, 2), ("VND", 704, 0), ("VUV", 548, 0),
    ("WST", 882, 2), ("XAD", 396, 2), ("XAF", 950, 0), ("XAG", 961, 0), ("XAU", 959, 0), ("XBA", 955, 0),
    ("XBB", 956, 0), ("XBC", 957, 0), ("XBD", 958, 0), ("XCD", 951, 2), ("XCG", 532, 2), ("XDR", 960, 0),
    ("XOF", 952, 0), ("XPD", 964, 0), ("XPF", 953, 0), ("XPT", 962, 0), ("XSU", 994, 0), ("XTS", 963, 0),
    ("XUA", 965, 0), ("XXX", 999, 0), ("YER", 886, 2), ("ZAR", 710, 2), ("ZMW", 967, 2), ("ZWG", 924, 2)]

def currency_table : List CurrencyDef := currencyCodes.map (fun c => ⟨text c.1, c.2.1, c.2.2⟩)

structure CurrencyReg where
  alpha : Bytes
  numeric : BitVec 16
  exponent : Nat
  historical : Bool
  deriving DecidableEq

def MONEY_REGISTERED_BASE : BitVec 16 := 1000

/-- `currency_registered` and `currency_next_code`. -/
structure Currencies where
  registered : List CurrencyReg
  nextCode : BitVec 16

variable {cs : Currencies}

/-- No currency registered yet. -/
def Currencies.start : Currencies := ⟨[], MONEY_REGISTERED_BASE⟩

def currencyFindAlpha (cs : Currencies) (alpha : Bytes) : Option (BitVec 16 × Nat × Bool) :=
  match cs.registered.find? (fun r => r.alpha = alpha) with
  | some r => some (r.numeric, r.exponent, r.historical)
  | none => (currency_table.find? (fun d => d.alpha = alpha)).map (fun d => (d.numeric, d.exponent, false))

def currencyAlphaOf (cs : Currencies) (numeric : BitVec 16) : Option Bytes :=
  match cs.registered.find? (fun r => r.numeric = numeric) with
  | some r => some r.alpha
  | none => (currency_table.find? (fun d => d.numeric = numeric)).map CurrencyDef.alpha

def moneyError (message : Bytes) : Raise := ⟨message.take 127, 1003, "money"⟩

def updateFirst (alpha : Bytes) (f : CurrencyReg → CurrencyReg) : List CurrencyReg → List CurrencyReg
  | [] => []
  | r :: rs => if r.alpha = alpha then f r :: rs else r :: updateFirst alpha f rs

def Currencies.update (cs : Currencies) (alpha : Bytes) (f : CurrencyReg → CurrencyReg) : Currencies :=
  ⟨updateFirst alpha f cs.registered, cs.nextCode⟩

/-- `money.register`: the exponent is none where the number given is not a whole number from 0 to 8. -/
def moneyRegister (cs : Currencies) (alpha : Bytes) (exponent : Option (Fin 9)) :
    Except Raise (BitVec 16 × Currencies) :=
  if alpha.length < 2 ∨ 6 < alpha.length then .error (moneyError (text "a currency code is 2 to 6 characters"))
  else if alpha.any (fun b => b.val < 65 || 90 < b.val) then
    .error (moneyError (text "a currency code must be upper-case letters"))
  else
    match exponent with
    | none => .error (moneyError (text "a currency exponent is a whole number from 0 to 8"))
    | some e =>
      match cs.registered.find? (fun r => r.alpha = alpha) with
      | some r =>
        .ok (r.numeric, cs.update alpha (fun r => { r with exponent := e.val, historical := false }))
      | none => .ok (cs.nextCode, ⟨cs.registered ++ [⟨alpha, cs.nextCode, e.val, false⟩], cs.nextCode + 1⟩)

/-- `money.retire`: a built-in currency is shadowed by a historical entry of its own number. -/
def moneyRetire (cs : Currencies) (alpha : Bytes) : Except Raise Currencies :=
  match currencyFindAlpha cs alpha with
  | none => .error (moneyError (text "no such currency: " ++ alpha))
  | some (num, exp, _) =>
    match cs.registered.find? (fun r => r.alpha = alpha) with
    | some _ =>
      .ok (cs.update alpha (fun r => { r with historical := true }))
    | none => .ok { cs with registered := cs.registered ++ [⟨alpha, num, exp, true⟩] }

/-- The currencies a program can reach. -/
inductive Reached : Currencies → Prop where
  | start : Reached .start
  | register {cs cs' : Currencies} {num : BitVec 16} (hr : Reached cs) (alpha : Bytes) (exponent : Option (Fin 9))
      (hok : moneyRegister cs alpha exponent = .ok (num, cs')) : Reached cs'
  | retire {cs cs' : Currencies} (hr : Reached cs) (alpha : Bytes) (hok : moneyRetire cs alpha = .ok cs') : Reached cs'

/-! ## What every program reaches -/

/-- Codes registered are different, and each is a short string of letters. -/
structure Currencies.Ok (cs : Currencies) : Prop where
  apart : (cs.registered.map CurrencyReg.alpha).Nodup
  letters : ∀ r ∈ cs.registered, r.alpha ≠ [] ∧ r.alpha.length < 8 ∧ ∀ b ∈ r.alpha, b.val ≠ 0

theorem table_codes : ∀ d ∈ currency_table, d.alpha.length = 3 ∧ d.alpha.all (fun b => b.val ≠ 0) := by decide +kernel

theorem table_letters : ∀ d ∈ currency_table, d.alpha ≠ [] ∧ d.alpha.length < 8 ∧ ∀ b ∈ d.alpha, b.val ≠ 0 := by
  intro d hd
  obtain ⟨hlen, hall⟩ := table_codes d hd
  refine ⟨fun hnil => ?_, by omega, fun b hb => by simpa using List.all_eq_true.1 hall b hb⟩
  rw [hnil] at hlen
  cases hlen

theorem table_sorted : (currency_table.map (fun d => beNat d.alpha)).IsChain (· < ·) := by decide +kernel

theorem table_apart : (currency_table.map CurrencyDef.alpha).Nodup := by
  have hlt := List.isChain_iff_pairwise.1 table_sorted
  have hnodup : ((currency_table.map CurrencyDef.alpha).map beNat).Nodup := by
    rw [List.map_map]
    exact hlt.imp Nat.ne_of_lt
  exact hnodup.of_map

theorem codes_apart : (currencyCodes.map (fun c => c.2.1)).Nodup := by decide +kernel

theorem table_numbers : currency_table.map (fun d => d.numeric.toNat) = currencyCodes.map (fun c => c.2.1) := by
  decide +kernel

theorem table_numeric {d e : CurrencyDef} (hd : d ∈ currency_table) (he : e ∈ currency_table)
    (h : d.numeric = e.numeric) : d = e := by
  have hnodup : (currency_table.map (fun d => d.numeric.toNat)).Nodup := by
    rw [table_numbers]
    exact codes_apart
  exact List.inj_on_of_nodup_map hnodup hd he (congrArg BitVec.toNat h)

theorem updateFirst_alpha {alpha : Bytes} {f : CurrencyReg → CurrencyReg} (hf : ∀ r, (f r).alpha = r.alpha) :
    ∀ rs : List CurrencyReg, (updateFirst alpha f rs).map CurrencyReg.alpha = rs.map CurrencyReg.alpha
  | [] => rfl
  | r :: rs => by
    rw [updateFirst]
    split_ifs
    · simp [hf]
    · simp [updateFirst_alpha hf rs]

theorem Currencies.Ok.update (h : cs.Ok) {f : CurrencyReg → CurrencyReg} (hf : ∀ r, (f r).alpha = r.alpha) :
    (cs.update alpha f).Ok where
  apart := by
    rw [Currencies.update, updateFirst_alpha hf]
    exact h.apart
  letters r hr := by
    have hmem : r.alpha ∈ cs.registered.map CurrencyReg.alpha := by
      rw [← updateFirst_alpha hf cs.registered]
      exact List.mem_map_of_mem hr
    obtain ⟨r', hr', he⟩ := List.mem_map.1 hmem
    rw [← he]
    exact h.letters r' hr'

theorem Currencies.Ok.append (h : cs.Ok) {r : CurrencyReg} {next : BitVec 16}
    (hnew : cs.registered.find? (fun s => s.alpha = r.alpha) = none)
    (hletters : r.alpha ≠ [] ∧ r.alpha.length < 8 ∧ ∀ b ∈ r.alpha, b.val ≠ 0) :
    (⟨cs.registered ++ [r], next⟩ : Currencies).Ok where
  apart := by
    rw [List.map_append, List.map_singleton, List.nodup_append]
    refine ⟨h.apart, List.nodup_singleton _, ?_⟩
    intro a ha b hb hab
    obtain ⟨s, hs, hsa⟩ := List.mem_map.1 ha
    have hne := List.find?_eq_none.1 hnew s hs
    rw [List.mem_singleton.1 hb] at hab
    exact hne (by simpa using hsa.trans hab)
  letters s hs := by
    rcases List.mem_append.1 hs with hs | hs
    · exact h.letters s hs
    · rw [List.mem_singleton.1 hs]
      exact hletters

/-- **Whatever a program registers and retires, its codes stay apart.** -/
theorem Reached.ok (h : Reached cs) : cs.Ok := by
  induction h with
  | start => exact ⟨List.nodup_nil, fun r hr => by cases hr⟩
  | register hr alpha exponent hok ih =>
    unfold moneyRegister at hok
    split_ifs at hok with hlen hlet
    split at hok
    · cases hok
    split at hok
    · cases hok
      exact ih.update (fun r => rfl)
    · rename_i hnew
      cases hok
      rw [not_or, not_lt, not_lt] at hlen
      have hletters : alpha ≠ [] ∧ alpha.length < 8 ∧ ∀ b ∈ alpha, b.val ≠ 0 := by
        refine ⟨fun hnil => ?_, by omega, fun b hb h0 => hlet (List.any_eq_true.2 ⟨b, hb, by simp [h0]⟩)⟩
        rw [hnil] at hlen
        simp at hlen
      exact ih.append hnew hletters
  | retire hr alpha hok ih =>
    unfold moneyRetire at hok
    split at hok
    · cases hok
    rename_i num exp hist hfind
    split at hok
    · cases hok
      exact ih.update (fun r => rfl)
    · rename_i hnew
      cases hok
      refine ih.append hnew ?_
      rw [currencyFindAlpha, hnew] at hfind
      obtain ⟨d, hd, -⟩ := Option.map_eq_some_iff.1 hfind
      have hmem := List.mem_of_find?_eq_some hd
      have hname : d.alpha = alpha := by simpa using List.find?_some hd
      rw [← hname]
      exact table_letters d hmem

def Currencies.Shadowed (cs : Currencies) (numeric : BitVec 16) : Prop :=
  (∀ r ∈ cs.registered, r.numeric ≠ numeric) ∧
    ∃ d ∈ currency_table, d.numeric = numeric ∧ ∃ r ∈ cs.registered, r.alpha = d.alpha

instance (cs : Currencies) (numeric : BitVec 16) : Decidable (cs.Shadowed numeric) := by
  unfold Currencies.Shadowed
  infer_instance

theorem currencyAlphaOf_letters (h : cs.Ok) {numeric : BitVec 16} (ha : currencyAlphaOf cs numeric = some alpha) :
    alpha ≠ [] ∧ alpha.length < 8 ∧ ∀ b ∈ alpha, b.val ≠ 0 := by
  unfold currencyAlphaOf at ha
  split at ha
  · rename_i r hr
    cases ha
    exact h.letters r (List.mem_of_find?_eq_some hr)
  · obtain ⟨d, hd, rfl⟩ := Option.map_eq_some_iff.1 ha
    exact table_letters d (List.mem_of_find?_eq_some hd)

/-- **A name leads back to its number, unless another has taken it.** -/
theorem currencyFind_alphaOf (h : cs.Ok) {numeric : BitVec 16} (ha : currencyAlphaOf cs numeric = some alpha) :
    ∃ n e hist, currencyFindAlpha cs alpha = some (n, e, hist) ∧ (n = numeric ↔ ¬ cs.Shadowed numeric) := by
  unfold currencyAlphaOf at ha
  split at ha
  · -- a registered number: its own entry is the one of its name
    rename_i r hr
    cases ha
    have hmem := List.mem_of_find?_eq_some hr
    have hnum : r.numeric = numeric := by simpa using List.find?_some hr
    obtain ⟨s, hs⟩ : ∃ s, cs.registered.find? (fun s => s.alpha = r.alpha) = some s := by
      rw [← Option.isSome_iff_exists, List.find?_isSome]
      exact ⟨r, hmem, by simp⟩
    have hsr : s = r := by
      refine List.inj_on_of_nodup_map h.apart (List.mem_of_find?_eq_some hs) hmem ?_
      simpa using List.find?_some hs
    subst hsr
    refine ⟨s.numeric, s.exponent, s.historical, by rw [currencyFindAlpha, hs], ?_⟩
    simp only [hnum, true_iff]
    exact fun hsh => hsh.1 s hmem hnum
  · rename_i hnone
    obtain ⟨d, hd, rfl⟩ := Option.map_eq_some_iff.1 ha
    have hmem := List.mem_of_find?_eq_some hd
    have hnum : d.numeric = numeric := by simpa using List.find?_some hd
    have hfree : ∀ r ∈ cs.registered, r.numeric ≠ numeric := fun r hr => by
      simpa using List.find?_eq_none.1 hnone r hr
    rcases hfind : cs.registered.find? (fun s => s.alpha = d.alpha) with _ | s
    · -- nothing registered has the name
      obtain ⟨d', hd'⟩ : ∃ d', currency_table.find? (fun x => x.alpha = d.alpha) = some d' := by
        rw [← Option.isSome_iff_exists, List.find?_isSome]
        exact ⟨d, hmem, by simp⟩
      have hdd : d' = d := by
        refine List.inj_on_of_nodup_map table_apart (List.mem_of_find?_eq_some hd') hmem ?_
        simpa using List.find?_some hd'
      subst hdd
      refine ⟨d'.numeric, d'.exponent, false, by rw [currencyFindAlpha, hfind, hd']; rfl, ?_⟩
      simp only [hnum, true_iff]
      rintro ⟨-, e, he, hen, r, hr, hre⟩
      have hed : e.alpha = d'.alpha := by
        rw [table_numeric he hmem (hen.trans hnum.symm)]
      exact (List.find?_eq_none.1 hfind r hr) (by simpa using hre.trans hed)
    · have hs := List.mem_of_find?_eq_some hfind
      have hname : s.alpha = d.alpha := by simpa using List.find?_some hfind
      refine ⟨s.numeric, s.exponent, s.historical, by rw [currencyFindAlpha, hfind], ?_⟩
      refine ⟨fun he => absurd he (hfree s hs), fun hns => ?_⟩
      exact absurd ⟨hfree, d, hmem, hnum, s, hs, hname⟩ hns

end Eval
end Gbasic
