import Gbasic.ValueEqualSame
import Mathlib.Data.Prod.Lex
import Mathlib.Order.Defs.LinearOrder
/-!
# SortOrder — the order that values are sorted in

`sortValueCompare` compares two values of a column, and `order` is what it is for: absences last, numbers by what they
stand for with a NaN after them all, and the other kinds by integers of which the first difference decides.  The
operator `<` answers by the same order (`evalLess_order`).
-/
namespace Gbasic

open Std (TransCmp OrientedCmp)

variable {v w f : Value} {a : ℤ}

/-! ## Numbers -/

namespace Double

/-- Where a double stands: the infinities around the finite ones, and a NaN after them. -/
def place : Double → ℕ ×ₗ ℚ
  | .nan => toLex (3, 0)
  | .inf neg => toLex (if neg then 0 else 2, 0)
  | .finite q => toLex (1, q)

theorem place_lt_nan {x : Double} (h : x ≠ .nan) : x.place < place .nan := by
  refine Prod.Lex.lt_iff.2 (Or.inl ?_)
  rcases x with _ | neg | q
  · exact absurd rfl h
  · cases neg <;> decide
  · exact Nat.lt_of_sub_eq_succ rfl

theorem compare_finite (p q : ℚ) : compare (place (.finite p)) (place (.finite q)) = compare p q := by
  rcases lt_trichotomy p q with h | rfl | h
  · rw [compare_lt_iff_lt.2 h, compare_lt_iff_lt]
    exact Prod.Lex.lt_iff.2 (Or.inr ⟨rfl, h⟩)
  · rw [(compare_eq_iff_eq (a := p)).2 rfl, compare_eq_iff_eq]
  · rw [compare_gt_iff_gt.2 h, compare_gt_iff_gt]
    exact Prod.Lex.lt_iff.2 (Or.inr ⟨rfl, h⟩)

theorem lt_place {a b : Double} (ha : a ≠ .nan) (hb : b ≠ .nan) : a.lt b = true ↔ a.place < b.place := by
  rcases a with _ | s | p
  · exact absurd rfl ha
  · rcases b with _ | t | q
    · exact absurd rfl hb
    · cases s <;> cases t <;> simp [lt, place, Prod.Lex.lt_iff]
    · cases s <;> simp [lt, place, Prod.Lex.lt_iff]
  · rcases b with _ | t | q
    · exact absurd rfl hb
    · cases t <;> simp [lt, place, Prod.Lex.lt_iff]
    · simp [lt, place, Prod.Lex.lt_iff]

theorem lt_of_lt_trunc {b : ℚ} (h : a < trunc b) : (a : ℚ) < b := by
  rw [trunc] at h
  split_ifs at h with hneg
  · have h1 : ⌊-b⌋ < -a := by omega
    have h2 := Int.lt_floor_add_one (-b)
    have h3 : (⌊-b⌋ : ℚ) + 1 ≤ ((-a : ℤ) : ℚ) := by exact_mod_cast h1
    rw [Int.cast_neg] at h3
    linarith
  · have h1 : (a : ℚ) < ⌊b⌋ := by exact_mod_cast h
    exact lt_of_lt_of_le h1 (Int.floor_le b)

theorem lt_of_trunc_lt {b : ℚ} (h : trunc b < a) : b < a := by
  rw [trunc] at h
  split_ifs at h with hneg
  · have h1 : -a < ⌊-b⌋ := by omega
    have h2 := Int.floor_le (-b)
    have h3 : ((-a : ℤ) : ℚ) < ⌊-b⌋ := by exact_mod_cast h1
    rw [Int.cast_neg] at h3
    linarith
  · have h1 : ⌊b⌋ + 1 ≤ a := by omega
    have h2 : ((⌊b⌋ : ℚ)) + 1 ≤ a := by exact_mod_cast h1
    exact lt_of_lt_of_le (Int.lt_floor_add_one b) h2

/-- **A 64-bit integer compares with a double as the one number with the other.** -/
theorem compareInt_place {b : Double} (ha : -2 ^ 63 ≤ a ∧ a < 2 ^ 63) (hb : b ≠ .nan) :
    compareInt a b = some (compare (place (.finite a)) b.place) := by
  rcases b with _ | neg | b
  · exact absurd rfl hb
  · cases neg
    · exact congrArg some (compare_lt_iff_lt.2 (Prod.Lex.lt_iff.2 (Or.inl (Nat.lt_of_sub_eq_succ rfl)))).symm
    · exact congrArg some (compare_gt_iff_gt.2 (Prod.Lex.lt_iff.2 (Or.inl (Nat.lt_of_sub_eq_succ rfl)))).symm
  have hlo : (-2 ^ 63 : ℚ) ≤ a := by exact_mod_cast ha.1
  have hhi : (a : ℚ) < 2 ^ 63 := by exact_mod_cast ha.2
  rw [compare_finite, compareInt]
  split_ifs with h1 h2 h3 h4 h5 h6
  · rw [compare_lt_iff_lt.2 (hhi.trans_le h1)]
  · rw [compare_gt_iff_gt.2 (h2.trans_le hlo)]
  · rw [compare_lt_iff_lt.2 (lt_of_lt_trunc h3)]
  · rw [compare_gt_iff_gt.2 (lt_of_trunc_lt h4)]
  · have ha' : a = trunc b := by omega
    rw [compare_lt_iff_lt.2 (by rw [ha']; exact h5)]
  · have ha' : a = trunc b := by omega
    rw [compare_gt_iff_gt.2 (by rw [ha']; exact h6)]
  · have ha' : a = trunc b := by omega
    rw [compare_eq_iff_eq.2 (by rw [ha']; exact le_antisymm (not_lt.1 h6) (not_lt.1 h5))]

end Double

namespace Same

open Eval (CString DateTime Raise Currencies currencyAlphaOf)

def numberOrder (l r : Eval.Number) : Ordering :=
  if numberIsNan l || numberIsNan r then compare (numberIsNan l).toNat (numberIsNan r).toNat
  else (numberCompareExactly l r).getD .gt

theorem numberCompareExactly_place {l r : Eval.Number} (hl : key l ≠ .nan) (hr : key r ≠ .nan) :
    numberCompareExactly l r = some (compare (key l).place (key r).place) := by
  rcases l with x | a
  · rcases r with y | b
    · rw [numberCompareExactly, key, key, Double.compare_finite]
      refine congrArg some ?_
      rcases lt_trichotomy x.toInt y.toInt with h | h | h
      · rw [compare_lt_iff_lt.2 h, compare_lt_iff_lt.2 (by exact_mod_cast h)]
      · rw [h, compare_eq_iff_eq.2 rfl, compare_eq_iff_eq.2 rfl]
      · rw [compare_gt_iff_gt.2 h, compare_gt_iff_gt.2 (by exact_mod_cast h)]
    · exact Double.compareInt_place (toInt_bounds x) hr
  · rcases r with y | b
    · change Double.ofBits a ≠ .nan at hl
      rw [numberCompareExactly, Double.compareInt_place (toInt_bounds y) hl, Option.map_some,
        ← @OrientedCmp.eq_swap _ compare]
      rfl
    · change Double.ofBits a ≠ .nan at hl
      change Double.ofBits b ≠ .nan at hr
      have ha : (Double.ofBits a).isNan = false := by simpa [Double.isNan] using hl
      have hb : (Double.ofBits b).isNan = false := by simpa [Double.isNan] using hr
      rw [numberCompareExactly, ha, hb, key, key]
      simp only [Bool.or_self, Bool.false_eq_true, if_false]
      split_ifs with h1 h2
      · rw [compare_gt_iff_gt.2 ((Double.lt_place hr hl).1 h1)]
      · rw [compare_lt_iff_lt.2 ((Double.lt_place hl hr).1 h2)]
      · rw [Double.lt_place hr hl] at h1
        rw [Double.lt_place hl hr] at h2
        rw [compare_eq_iff_eq.2 (le_antisymm (not_lt.1 h1) (not_lt.1 h2))]

/-- **Numbers of either kind are in one total order**, that of what they stand for, a NaN after all others. -/
theorem numberOrder_place (l r : Eval.Number) : numberOrder l r = compare (key l).place (key r).place := by
  rw [numberOrder]
  rcases hl : numberIsNan l with _ | _ <;> rcases hr : numberIsNan r with _ | _
  · have hl' : key l ≠ .nan := fun h => by rw [(numberIsNan_iff l).2 h] at hl; cases hl
    have hr' : key r ≠ .nan := fun h => by rw [(numberIsNan_iff r).2 h] at hr; cases hr
    rw [numberCompareExactly_place hl' hr']
    rfl
  · have hl' : key l ≠ .nan := fun h => by rw [(numberIsNan_iff l).2 h] at hl; cases hl
    rw [(numberIsNan_iff r).1 hr, compare_lt_iff_lt.2 (Double.place_lt_nan hl')]
    rfl
  · have hr' : key r ≠ .nan := fun h => by rw [(numberIsNan_iff r).2 h] at hr; cases hr
    rw [(numberIsNan_iff l).1 hl, compare_gt_iff_gt.2 (Double.place_lt_nan hr')]
    rfl
  · rw [(numberIsNan_iff l).1 hl, (numberIsNan_iff r).1 hr, compare_eq_iff_eq.2 rfl]
    rfl

/-! ## Kinds -/

deriving instance DecidableEq for Kind

def valueKindName : Kind → String
  | .null => "nothing"
  | .unknown => "unknown"
  | .number => "number"
  | .string => "string"
  | .bool => "boolean"
  | .array => "array"
  | .record => "record"
  | .datetime => "datetime"
  | .duration => "duration"
  | .money => "money"
  | .file => "file"
  | .dir => "directory"
  | .handle .postgresConnection => "postgres_connection"
  | .handle .sqliteConnection => "sqlite_connection"
  | .handle .odbcConnection => "odbc_connection"
  | .handle .ldapConnection => "ldap_connection"
  | .handle .gsqlConnection => "gsql_connection"
  | .handle .gsqlStatement => "gsql_statement"
  | .handle .xmlReader => "xml_reader"
  | .handle .csvSource => "csv_source"
  | .handle .actor => "actor"
  | .handle .process => "process"
  | .handle .http => "http"
  | .handle .net => "net"
  | .handle .workbook => "workbook"
  | .function => "function"
  | .regex => "regex"
  | .watcher => "watcher"

/-! ## Comparing two values of a column -/

def valueSortRank : Value → Nat
  | .null => 1
  | .unknown => 1
  | _ => 0

def sortValueCompare (left right : Value) : Ordering :=
  if valueSortRank left ≠ valueSortRank right then
    if valueSortRank left < valueSortRank right then .lt else .gt
  else if valueSortRank left ≠ 0 then .eq
  else
    match left, right with
    | .number l, .number r => numberOrder l r
    | .string l, .string r => stringCompare l r
    | .bool l, .bool r => compare l.toNat r.toNat
    | .datetime l, .datetime r => datetimeCompareExact l r
    | .money l, .money r => compare l.units.toInt r.units.toInt
    | .duration l, .duration r => compare (durationTotals l).2 (durationTotals r).2
    | _, _ => .eq

inductive OrderAnswer where
  | unknown
  | bool (b : Bool)
  | raised (r : Raise)
  deriving DecidableEq

def orderRaise (message : Bytes) (library : String) : OrderAnswer := .raised ⟨message, 1003, library⟩

/-- `eval_comparison` for `<`, without a modifier. -/
def evalLess (cs : Currencies) : Value → Value → OrderAnswer
  | .unknown, _ => .unknown
  | _, .unknown => .unknown
  | .datetime l, .datetime r => .bool (datetimeCompareExact l r = .lt)
  | .datetime _, _ => orderRaise (text "date/time comparison requires date/time values") "datetime"
  | _, .datetime _ => orderRaise (text "date/time comparison requires date/time values") "datetime"
  | .duration l, .duration r =>
    if (durationTotals l).1 ≠ 0 ∨ (durationTotals r).1 ≠ 0 then
      orderRaise (text "a month has no fixed length; compare exact durations or use dates.between") "duration"
    else .bool ((durationTotals l).2 < (durationTotals r).2)
  | .duration _, _ => orderRaise (text "duration comparison requires duration values") "duration"
  | _, .duration _ => orderRaise (text "duration comparison requires duration values") "duration"
  | .string l, .string r => .bool (stringCompare l r = .lt)
  | .money l, .money r =>
    if l.currency = r.currency ∧ l.exponent = r.exponent then .bool (l.units.toInt < r.units.toInt)
    else orderRaise ((text "cannot order money in different currencies (" ++
      (currencyAlphaOf cs l.currency).getD (text "?") ++ text " and " ++
      (currencyAlphaOf cs r.currency).getD (text "?") ++ text ")").take 159) "money"
  | .money _, _ => orderRaise (text "money comparison requires money values") "money"
  | _, .money _ => orderRaise (text "money comparison requires money values") "money"
  | .array _ _, _ => orderRaise (text "arrays support only = and !=") "comparison"
  | _, .array _ _ => orderRaise (text "arrays support only = and !=") "comparison"
  | .record _, _ => orderRaise (text "records support only = and !=") "comparison"
  | _, .record _ => orderRaise (text "records support only = and !=") "comparison"
  | .function _ _, _ => orderRaise (text "functions support only = and !=") "comparison"
  | _, .function _ _ => orderRaise (text "functions support only = and !=") "comparison"
  | .watcher _, _ => orderRaise (text "watcher values support only = and !=") "comparison"
  | _, .watcher _ => orderRaise (text "watcher values support only = and !=") "comparison"
  | .regex _ _, _ => orderRaise (text "regex values support only = and !=") "comparison"
  | _, .regex _ _ => orderRaise (text "regex values support only = and !=") "comparison"
  | .null, _ => orderRaise (text "unknown and nothing support only = and !=") "comparison"
  | _, .null => orderRaise (text "unknown and nothing support only = and !=") "comparison"
  | .string _, r => orderRaise (text ("a string and a " ++ valueKindName r.kind ++
      " have no order; = and != answer, the ordering operators do not")) "comparison"
  | l, .string _ => orderRaise (text ("a string and a " ++ valueKindName l.kind ++
      " have no order; = and != answer, the ordering operators do not")) "comparison"
  -- two numbers of which one is exact, two inexact ones, or a boolean
  | .number (.exact x), .number r => .bool (numberCompareExactly (.exact x) r = some .lt)
  | .number l, .number (.exact y) => .bool (numberCompareExactly l (.exact y) = some .lt)
  | .number l, .number r => .bool ((key l).lt (key r))
  | .number l, .bool r => .bool ((key l).lt (numberOrZero (.bool r)))
  | .bool l, .number r => .bool ((numberOrZero (.bool l)).lt (key r))
  | .bool l, .bool r => .bool ((numberOrZero (.bool l)).lt (numberOrZero (.bool r)))
  | l, r => orderRaise (text ("a " ++ valueKindName l.kind ++ " and a " ++ valueKindName r.kind ++
      " have no order; = and != answer, the ordering operators do not")) "comparison"

/-! ## What a value stands for -/

def numberPlace : Value → ℕ ×ₗ ℚ
  | .number n => (key n).place
  | _ => toLex (0, 0)

def datetimeCode (dt : DateTime) : List Int :=
  (if dt.timeOnly ≠ 0 then [1, 0, 0, 0] else [0, dt.year.toInt, dt.month.toInt, dt.day.toInt]) ++
    [dt.hour.toInt, dt.minute.toInt, dt.second.toInt, dt.precision.toInt]

/-- The integers that a value which is no number stands for. -/
def code : Value → List Int
  | .string s => s.map (fun b => (b.val : Int))
  | .bool b => [b.toNat]
  | .datetime dt => datetimeCode dt
  | .money m => [m.units.toInt]
  | .duration d => [(durationTotals d).2]
  | _ => []

/-- **The order**: absences last and level, numbers by their places, and other kinds by the first integer to differ. -/
def order : Value → Value → Ordering :=
  compareLex (compareOn valueSortRank) (compareLex (compareOn numberPlace) (compareOn code))

instance : TransCmp order :=
  inferInstanceAs (TransCmp (compareLex (compareOn valueSortRank)
  (compareLex (compareOn numberPlace) (compareOn code))))

theorem compare_cast (a b : Nat) : compare (a : Int) (b : Int) = compare a b := by
  rcases lt_trichotomy a b with h | rfl | h
  · rw [compare_lt_iff_lt.2 h, compare_lt_iff_lt.2 (by exact_mod_cast h)]
  · rw [(compare_eq_iff_eq (a := a)).2 rfl, (compare_eq_iff_eq (a := (a : Int))).2 rfl]
  · rw [compare_gt_iff_gt.2 h, compare_gt_iff_gt.2 (by exact_mod_cast h)]

theorem compare_single (a b : Int) : compare [a] [b] = compare a b := by
  change List.compareLex compare [a] [b] = _
  rw [List.compareLex_cons_cons, List.compareLex_nil_nil, Ordering.then_eq]

theorem stringCompare_code : ∀ l r : Bytes, stringCompare l r =
    compare (l.map (fun b => (b.val : Int))) (r.map (fun b => (b.val : Int)))
  | [], [] => rfl
  | [], _ :: _ => rfl
  | _ :: _, [] => rfl
  | a :: l, b :: r => by
    change _ = List.compareLex compare ((a.val : Int) :: l.map _) ((b.val : Int) :: r.map _)
    rw [stringCompare, List.compareLex_cons_cons, compare_cast]
    change _ = (compare a.val b.val).then
      (compare (l.map (fun b => (b.val : Int))) (r.map (fun b => (b.val : Int))))
    rcases lt_trichotomy a b with h | rfl | h
    · rw [if_pos h, compare_lt_iff_lt.2 (Fin.lt_def.1 h)]
      rfl
    · rw [if_neg (lt_irrefl a), if_neg (lt_irrefl a), (compare_eq_iff_eq (a := a.val)).2 rfl, stringCompare_code l r]
      rfl
    · rw [if_neg (lt_asymm h), if_pos h, compare_gt_iff_gt.2 (Fin.lt_def.1 h)]
      rfl

theorem datetimeCompareExact_code (l r : DateTime) :
    datetimeCompareExact l r = compare (datetimeCode l) (datetimeCode r) := by
  change _ = List.compareLex compare (datetimeCode l) (datetimeCode r)
  unfold datetimeCompareExact datetimeCode
  dsimp only
  by_cases hl : l.timeOnly ≠ 0
  · by_cases hr : r.timeOnly ≠ 0
    · simp only [if_pos hl, if_pos hr]
      simp [List.compareLex_cons_cons, List.compareLex_nil_nil]
    · simp only [if_pos hl, if_neg hr]
      rfl
  · by_cases hr : r.timeOnly ≠ 0
    · simp only [if_neg hl, if_pos hr]
      rfl
    · simp only [if_neg hl, if_neg hr]
      simp [List.compareLex_cons_cons, List.compareLex_nil_nil, Ordering.then_assoc]

theorem order_number (l r : Eval.Number) : order (.number l) (.number r) = compare (key l).place (key r).place := by
  change ((compare (key l).place (key r).place).then .eq) = _
  rw [Ordering.then_eq]

theorem order_code (hv : valueSortRank v = 0) (hw : valueSortRank w = 0) (hpv : numberPlace v = toLex (0, 0))
    (hpw : numberPlace w = toLex (0, 0)) : order v w = compare (code v) (code w) := by
  change (compare (valueSortRank v) (valueSortRank w)).then ((compare (numberPlace v) (numberPlace w)).then _) = _
  rw [hv, hw, hpv, hpw, compare_eq_iff_eq.2 rfl, compare_eq_iff_eq.2 rfl]
  rfl

theorem order_absent (h : valueSortRank v ≠ valueSortRank w) :
    order v w = compare (valueSortRank v) (valueSortRank w) := by
  change (compare (valueSortRank v) (valueSortRank w)).then _ = _
  rcases lt_or_gt_of_ne h with h | h
  · rw [compare_lt_iff_lt.2 h]
    rfl
  · rw [compare_gt_iff_gt.2 h]
    rfl

/-! ## Values of one column -/

/-- What has an order with the values of a kind, `f` being the first of them: money of its currency, no months. -/
structure Fits (f v : Value) : Prop where
  sortable : v.kind ∈ [Kind.number, .string, .bool, .datetime, .money, .duration]
  kind : v.kind = f.kind
  money : ∀ a b, f = .money a → v = .money b → b.currency = a.currency ∧ b.exponent = a.exponent
  exact : ∀ d, v = .duration d → (durationTotals d).1 = 0

theorem kind_number (h : v.kind = .number) : ∃ n, v = .number n := by
  cases v <;> first | exact ⟨_, rfl⟩ | cases h

theorem kind_string (h : v.kind = .string) : ∃ s, v = .string s := by
  cases v <;> first | exact ⟨_, rfl⟩ | cases h

theorem kind_bool (h : v.kind = .bool) : ∃ b, v = .bool b := by
  cases v <;> first | exact ⟨_, rfl⟩ | cases h

theorem kind_datetime (h : v.kind = .datetime) : ∃ dt, v = .datetime dt := by
  cases v <;> first | exact ⟨_, rfl⟩ | cases h

theorem kind_money (h : v.kind = .money) : ∃ m, v = .money m := by
  cases v <;> first | exact ⟨_, rfl⟩ | cases h

theorem kind_duration (h : v.kind = .duration) : ∃ d, v = .duration d := by
  cases v <;> first | exact ⟨_, rfl⟩ | cases h

theorem Fits.cases (hv : Fits f v) (hw : Fits f w) :
    (∃ a b, v = .number a ∧ w = .number b) ∨ (∃ a b, v = .string a ∧ w = .string b) ∨
      (∃ a b, v = .bool a ∧ w = .bool b) ∨ (∃ a b, v = .datetime a ∧ w = .datetime b) ∨
      (∃ a b, v = .money a ∧ w = .money b ∧ a.currency = b.currency ∧ a.exponent = b.exponent) ∨
      ∃ a b, v = .duration a ∧ w = .duration b ∧ (durationTotals a).1 = 0 ∧ (durationTotals b).1 = 0 := by
  have hk := hw.kind.trans hv.kind.symm
  rcases List.mem_cons.1 hv.sortable with h | h
  · obtain ⟨a, rfl⟩ := kind_number h
    obtain ⟨b, rfl⟩ := kind_number hk
    exact Or.inl ⟨a, b, rfl, rfl⟩
  rcases List.mem_cons.1 h with h | h
  · obtain ⟨a, rfl⟩ := kind_string h
    obtain ⟨b, rfl⟩ := kind_string hk
    exact Or.inr (Or.inl ⟨a, b, rfl, rfl⟩)
  rcases List.mem_cons.1 h with h | h
  · obtain ⟨a, rfl⟩ := kind_bool h
    obtain ⟨b, rfl⟩ := kind_bool hk
    exact Or.inr (Or.inr (Or.inl ⟨a, b, rfl, rfl⟩))
  rcases List.mem_cons.1 h with h | h
  · obtain ⟨a, rfl⟩ := kind_datetime h
    obtain ⟨b, rfl⟩ := kind_datetime hk
    exact Or.inr (Or.inr (Or.inr (Or.inl ⟨a, b, rfl, rfl⟩)))
  rcases List.mem_cons.1 h with h | h
  · obtain ⟨a, rfl⟩ := kind_money h
    obtain ⟨b, rfl⟩ := kind_money hk
    obtain ⟨c, rfl⟩ := kind_money hv.kind.symm
    have ha := hv.money c a rfl rfl
    have hb := hw.money c b rfl rfl
    exact Or.inr (Or.inr (Or.inr (Or.inr (Or.inl
      ⟨a, b, rfl, rfl, ha.1.trans hb.1.symm, ha.2.trans hb.2.symm⟩))))
  · obtain ⟨a, rfl⟩ := kind_duration (List.mem_singleton.1 h)
    obtain ⟨b, rfl⟩ := kind_duration hk
    exact Or.inr (Or.inr (Or.inr (Or.inr (Or.inr ⟨a, b, rfl, rfl, hv.exact a rfl, hw.exact b rfl⟩))))

theorem compare_bool (a b : Bool) : compare a.toNat b.toNat = compare ((a.toNat : Int)) (b.toNat : Int) :=
  (compare_cast _ _).symm

/-- **Two values of a column are compared by their order.** -/
theorem sortValueCompare_order (hv : Fits f v ∨ valueSortRank v ≠ 0) (hw : Fits f w ∨ valueSortRank w ≠ 0) :
    sortValueCompare v w = order v w := by
  unfold sortValueCompare
  by_cases hr : valueSortRank v = valueSortRank w
  · rw [if_neg (not_not.2 hr)]
    by_cases h0 : valueSortRank v = 0
    · rw [if_neg (not_not.2 h0)]
      have hfv := hv.resolve_right (not_not.2 h0)
      have hfw := hw.resolve_right (not_not.2 (hr ▸ h0))
      rcases hfv.cases hfw with ⟨a, b, rfl, rfl⟩ | ⟨a, b, rfl, rfl⟩ | ⟨a, b, rfl, rfl⟩ | ⟨a, b, rfl, rfl⟩ |
        ⟨a, b, rfl, rfl, -⟩ | ⟨a, b, rfl, rfl, -⟩
      · rw [order_number]
        exact numberOrder_place a b
      · rw [order_code rfl rfl rfl rfl]
        exact stringCompare_code a b
      · rw [order_code rfl rfl rfl rfl]
        exact (compare_bool a b).trans (compare_single _ _).symm
      · rw [order_code rfl rfl rfl rfl]
        exact datetimeCompareExact_code a b
      · rw [order_code rfl rfl rfl rfl]
        exact (compare_single _ _).symm
      · rw [order_code rfl rfl rfl rfl]
        exact (compare_single _ _).symm
    · rw [if_pos h0]
      have hnull : ∀ u : Value, valueSortRank u ≠ 0 → numberPlace u = toLex (0, 0) ∧ code u = [] := by
        intro u hu
        cases u <;> first | exact ⟨rfl, rfl⟩ | exact absurd rfl hu
      change _ = (compare (valueSortRank v) (valueSortRank w)).then
        ((compare (numberPlace v) (numberPlace w)).then (compare (code v) (code w)))
      rw [hr, (hnull v h0).1, (hnull v h0).2, (hnull w (hr ▸ h0)).1, (hnull w (hr ▸ h0)).2,
        (compare_eq_iff_eq (a := valueSortRank w)).2 rfl, (compare_eq_iff_eq (a := toLex ((0 : ℕ), (0 : ℚ)))).2 rfl]
      rfl
  · rw [if_pos hr, order_absent hr]
    split_ifs with hlt
    · exact (compare_lt_iff_lt.2 hlt).symm
    · exact (compare_gt_iff_gt.2 (by omega)).symm

/-- **The operator `<` answers by the same order**, where no NaN is compared. -/
theorem evalLess_order (cs : Currencies) (hv : Fits f v) (hw : Fits f w) (hnv : ∀ n, v = .number n → key n ≠ .nan)
    (hnw : ∀ n, w = .number n → key n ≠ .nan) : evalLess cs v w = .bool (order v w = .lt) := by
  rcases hv.cases hw with ⟨a, b, rfl, rfl⟩ | ⟨a, b, rfl, rfl⟩ | ⟨a, b, rfl, rfl⟩ | ⟨a, b, rfl, rfl⟩ |
    ⟨a, b, rfl, rfl, hc, he⟩ | ⟨a, b, rfl, rfl, ha, hb⟩
  · have hna := hnv a rfl
    have hnb := hnw b rfl
    have hsame := numberCompareExactly_place hna hnb
    rw [order_number]
    rcases a with x | x
    · have h : evalLess cs (.number (.exact x)) (.number b) = .bool (numberCompareExactly (.exact x) b = some .lt) :=
        rfl
      rw [h, hsame]
      simp only [Option.some.injEq]
    · rcases b with y | y
      · have h : evalLess cs (.number (.inexact x)) (.number (.exact y)) =
            .bool (numberCompareExactly (.inexact x) (.exact y) = some .lt) := rfl
        rw [h, hsame]
        simp only [Option.some.injEq]
      · have h : evalLess cs (.number (.inexact x)) (.number (.inexact y)) =
            .bool ((key (.inexact x)).lt (key (.inexact y))) := rfl
        rw [h]
        refine congrArg OrderAnswer.bool (Bool.eq_iff_iff.2 ?_)
        rw [Double.lt_place hna hnb, decide_eq_true_eq, compare_lt_iff_lt]
  · rw [order_code rfl rfl rfl rfl, code, code, ← stringCompare_code]
    rfl
  · rw [order_code rfl rfl rfl rfl]
    cases a <;> cases b <;> rfl
  · rw [order_code rfl rfl rfl rfl, code, code, ← datetimeCompareExact_code]
    rfl
  · rw [order_code rfl rfl rfl rfl, code, code, compare_single]
    have h : evalLess cs (.money a) (.money b) = .bool (a.units.toInt < b.units.toInt) := if_pos ⟨hc, he⟩
    rw [h]
    simp only [compare_lt_iff_lt]
  · rw [order_code rfl rfl rfl rfl, code, code, compare_single]
    have h : evalLess cs (.duration a) (.duration b) = .bool ((durationTotals a).2 < (durationTotals b).2) :=
      if_neg (not_or.2 ⟨not_not.2 ha, not_not.2 hb⟩)
    rw [h]
    simp only [compare_lt_iff_lt]

end Same
end Gbasic
