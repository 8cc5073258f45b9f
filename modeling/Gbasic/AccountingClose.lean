import Gbasic.AccountingReports
/-!
# AccountingClose — a close clears the period

The lines of a close are the opposite of each balance that is cleared, and their net for the equity account.  Once they
are counted those balances are zero, and no later operation counts up to that date.
-/
namespace Gbasic
namespace Accounting

open Eval (Bytes Raise MoneyValue DateTime Currencies)
open Same (Value)
open Money (InLong amount unit unit_of)
open Tally (find put sumOf)

variable {cs : Currencies}

/-! ## The lines of a close -/

def posted (l : Line) : Bytes × Int := (l.account, amount l.amount)

def Gives (c : BitVec 16 × BitVec 8) (v : Value) (r : Bytes × Int) : Prop :=
  ∃ side m, v = given r.1 side m ∧ unit m = c ∧ r.2 = if side = .debit then amount m else -amount m

theorem given_fields (account : Bytes) (side : Side) (m : MoneyValue) :
    ∃ fields, given account side m = .record fields ∧ field fields "account" = .string account ∧
      field fields "debit" = (if side = .debit then .money m else .unknown) ∧
      field fields "credit" = (if side = .debit then .unknown else .money m) := by
  cases side
  · exact ⟨_, rfl, rfl, rfl, rfl⟩
  · exact ⟨_, rfl, rfl, rfl, rfl⟩

theorem sided_credit (env : Env) (place account : Bytes) (m : MoneyValue) :
    sided env place account .unknown (.money m) =
      match Money.times m (-1) with
      | .error e => .error (.raise e)
      | .ok signed => .ok ⟨account, signed, currencyOf env.cs m, .credit⟩ := rfl

theorem line_given {env : Env} {chart : Chart} {c : BitVec 16 × BitVec 8} {v : Value} {r : Bytes × Int} {i : Nat}
    {l : Line} (hv : Gives c v r) (h : line env chart v i = .ok l) : posted l = r ∧ unit l.amount = c := by
  obtain ⟨side, m, rfl, rfl, hr⟩ := hv
  obtain ⟨fields, hgiven, haccount, hdebit, hcredit⟩ := given_fields r.1 side m
  unfold line at h
  rw [hgiven] at h
  dsimp only at h
  rw [haccount] at h
  have hknown : ¬ isUnknown (.string r.1) = true := Bool.false_ne_true
  rw [if_neg hknown] at h
  dsimp only [keyOf] at h
  split_ifs at h with hin
  rw [hdebit, hcredit] at h
  cases side with
  | debit =>
    obtain rfl := Except.ok.inj h
    exact ⟨Prod.ext rfl hr.symm, rfl⟩
  | credit =>
    rw [if_neg (by decide), if_neg (by decide), sided_credit] at h
    rcases htimes : Money.times m (-1) with e | signed
    · rw [htimes] at h
      cases h
    · rw [htimes] at h
      obtain rfl := Except.ok.inj h
      obtain ⟨-, hu, ha⟩ := Money.times_neg.1 htimes
      exact ⟨Prod.ext rfl (ha.trans hr.symm), hu⟩

theorem linesFrom_given {env : Env} {chart : Chart} {c : BitVec 16 × BitVec 8} {items : List Value}
    {rows : List (Bytes × Int)} {i : Nat} {ls : List Line} (hall : List.Forall₂ (Gives c) items rows)
    (h : linesFrom env chart i items = .ok ls) : ls.map posted = rows ∧ Single c ls := by
  induction hall generalizing i ls with
  | nil =>
    obtain rfl := Except.ok.inj h
    exact ⟨rfl, fun l hl => by cases hl⟩
  | @cons v r items rows hv hall ih =>
    unfold linesFrom at h
    rcases hl : line env chart v i with e | l
    · rw [hl] at h
      cases h
    rw [hl] at h
    dsimp only at h
    rcases hls : linesFrom env chart (i + 1) items with e | rest
    · rw [hls] at h
      cases h
    rw [hls] at h
    obtain rfl := Except.ok.inj h
    obtain ⟨hp, hu⟩ := line_given hv hl
    obtain ⟨hrest, hsingle⟩ := ih hls
    refine ⟨by rw [List.map_cons, hp, hrest], fun l' hl' => ?_⟩
    rcases List.mem_cons.1 hl' with rfl | hmem
    · exact hu
    · exact hsingle l' hmem

/-! ## The loop -/

def Clears (chart : Chart) (r : Bytes × Int) : Prop := cleared chart r.1 = true ∧ r.2 ≠ 0

instance (chart : Chart) (r : Bytes × Int) : Decidable (Clears chart r) := inferInstanceAs (Decidable (_ ∧ _))

def opposites (chart : Chart) (rows : List (Bytes × Int)) : List (Bytes × Int) :=
  (rows.filter (fun r => Clears chart r)).map (fun r => (r.1, -r.2))

def clearedSum (chart : Chart) (rows : List (Bytes × Int)) : Int :=
  sumOf (fun r => cleared chart r.1 = true) Prod.snd rows

theorem opposite_gives {c : BitVec 16 × BitVec 8} {account : Bytes} {m : MoneyValue} {v : Value} (hm : unit m = c)
    (h : opposite cs (Money.of c 0) account m = .ok v) : Gives c v (account, -amount m) := by
  unfold opposite at h
  rw [Money.greater_same (hm.trans (unit_of 0).symm)] at h
  rcases habove : decide (amount (Money.of c 0) < amount m) with _ | _
  · rw [habove] at h
    rcases htimes : Money.times m (-1) with e | signed
    · rw [htimes] at h
      cases h
    · rw [htimes] at h
      obtain rfl := Except.ok.inj h
      obtain ⟨-, hu, ha⟩ := Money.times_neg.1 htimes
      exact ⟨.debit, signed, rfl, hu.trans hm, ha.symm⟩
  · rw [habove] at h
    obtain rfl := Except.ok.inj h
    exact ⟨.credit, m, rfl, hm, rfl⟩

theorem closing_ok {cs : Currencies} {chart : Chart} {c : BitVec 16 × BitVec 8} :
    ∀ {bal : List (Bytes × MoneyValue)} {lines lines' : List Value} {net net' : MoneyValue},
      (∀ r ∈ bal, unit r.2 = c) → unit net = c →
        closing cs chart (Money.of c 0) (lines, net) bal = .ok (lines', net') →
          ∃ made, lines' = lines ++ made ∧ List.Forall₂ (Gives c) made (opposites chart (amounts bal)) ∧
            unit net' = c ∧ amount net' = amount net - clearedSum chart (amounts bal)
  | [], lines, lines', net, net', _, hu, h => by
    obtain ⟨rfl, rfl⟩ := Prod.mk.inj (Except.ok.inj h)
    exact ⟨[], (List.append_nil _).symm, .nil, hu, (sub_zero _).symm⟩
  | (code, m) :: bal, lines, lines', net, net', hbal, hu, h => by
    have hm : unit m = c := hbal _ (List.mem_cons_self ..)
    have hrest : ∀ r ∈ bal, unit r.2 = c := fun r hr => hbal r (List.mem_cons_of_mem _ hr)
    have hzero : amount (Money.of c 0) = 0 := Money.amount_of (by decide)
    have hamounts : amounts ((code, m) :: bal) = (code, amount m) :: amounts bal := rfl
    have hsame : Money.same m (Money.of c 0) = decide (amount m = 0) := by
      unfold Money.same
      rw [hzero, unit_of]
      exact decide_eq_decide.2 (and_iff_right hm)
    unfold closing at h
    rw [hsame] at h
    by_cases hclear : Clears chart (code, amount m)
    · have hcond : (cleared chart code && !decide (amount m = 0)) = true := by
        rw [hclear.1, decide_eq_false hclear.2]
        rfl
      rw [if_pos hcond] at h
      rcases hv : opposite cs (Money.of c 0) code m with e | v
      · rw [hv] at h
        cases h
      rw [hv] at h
      dsimp only at h
      rcases hsub : Money.sub cs net m with e | next
      · rw [hsub] at h
        cases h
      rw [hsub] at h
      obtain ⟨-, -, hnu, hna⟩ := Money.sub_ok.1 hsub
      have hgives := opposite_gives hm hv
      obtain ⟨made, rfl, hmade, hu', ha'⟩ := closing_ok hrest (hnu.trans hu) h
      refine ⟨v :: made, by rw [List.append_assoc]; rfl, ?_, hu', ?_⟩
      · unfold opposites
        rw [hamounts, List.filter_cons_of_pos (by simpa using hclear), List.map_cons]
        exact .cons hgives hmade
      · unfold clearedSum
        rw [hamounts, Tally.sumOf_cons, if_pos hclear.1, ha', hna]
        unfold clearedSum
        omega
    · have hcond : ¬ (cleared chart code && !decide (amount m = 0)) = true := by
        intro hc
        rw [Bool.and_eq_true, Bool.not_eq_true', decide_eq_false_iff_not] at hc
        exact hclear hc
      rw [if_neg hcond] at h
      obtain ⟨made, rfl, hmade, hu', ha'⟩ := closing_ok hrest hu h
      refine ⟨made, rfl, ?_, hu', ?_⟩
      · unfold opposites
        rw [hamounts, List.filter_cons_of_neg (by simpa using hclear)]
        exact hmade
      · unfold clearedSum
        rw [hamounts, Tally.sumOf_cons, ha']
        unfold clearedSum
        have hnone : (if cleared chart code = true then amount m else 0) = 0 := by
          split_ifs with hc
          · by_contra hne
            exact hclear ⟨hc, hne⟩
          · rfl
        dsimp only
        rw [hnone, zero_add]

/-! ## What a close changes -/

theorem opposites_sum {chart : Chart} (a : Bytes) : ∀ rows : List (Bytes × Int),
    sumOf (fun r => r.1 = a) Prod.snd (opposites chart rows) =
      if cleared chart a then -sumOf (fun r => r.1 = a) Prod.snd rows else 0
  | [] => by
    unfold opposites
    simp
  | r :: rows => by
    have ih := @opposites_sum chart a rows
    unfold opposites at ih ⊢
    rw [Tally.sumOf_cons]
    by_cases hclear : Clears chart r
    · rw [List.filter_cons_of_pos (by simpa using hclear), List.map_cons, Tally.sumOf_cons, ih]
      dsimp only
      by_cases ha : r.1 = a
      · rw [if_pos ha, if_pos ha, ← ha, if_pos hclear.1, if_pos hclear.1]
        omega
      · rw [if_neg ha, if_neg ha, zero_add, zero_add]
    · rw [List.filter_cons_of_neg (by simpa using hclear), ih]
      split_ifs with hc ha
      · -- a balance of zero is not cleared
        have hzero : r.2 = 0 := by
          by_contra hne
          exact hclear ⟨ha ▸ hc, hne⟩
        rw [hzero, zero_add]
      · rw [zero_add]
      · rfl

theorem accountSum_posted (a : Bytes) (lines : List Line) :
    accountSum a lines = sumOf (fun r => r.1 = a) Prod.snd (lines.map posted) := by
  rw [Tally.sumOf_map]
  rfl

section
variable {env : Env} {chart : Chart} {lg : Ledger} {through : DateTime} {account : Bytes} {zero net : MoneyValue}
  {bal : List (Bytes × MoneyValue)} {lines : List Value} {ln : Value} {e : Entry} {c : BitVec 16 × BitVec 8}

theorem single_counted {upto : Option DateTime} (hc : Single c lg.lines) :
    Single c ((counted lg upto).flatMap Entry.lines) := by
  intro l hl
  obtain ⟨e, he, hle⟩ := List.mem_flatMap.1 hl
  exact hc l (List.mem_flatMap.2 ⟨e, List.mem_of_mem_filter he, hle⟩)

/-- **The lines of a close** are the opposites of what it clears, and their net. -/
theorem close_posted (h : Closes env chart lg through account zero bal lines net ln e) (hsound : Sound chart lg)
    (hc : Single c lg.lines) : Single c e.lines ∧
      e.lines.map posted =
        opposites chart (amounts (sorted bal)) ++ [(account, clearedSum chart (amounts (sorted bal)))] := by
  have hne : lg.entries ≠ [] := by
    intro hnil
    have hstart := h.start
    unfold zeroOf at hstart
    rw [hnil] at hstart
    cases hstart
  obtain rfl := Except.ok.inj ((zeroOf_ok hsound hne hc).symm.trans h.start)
  have htally := balances_tallied h.balances
  have hunits : ∀ r ∈ sorted bal, unit r.2 = c := fun r hr =>
    htally.unit (single_counted hc) (mem_sorted.1 hr)
  obtain ⟨made, rfl, hmade, hu, ha⟩ := closing_ok hunits (unit_of 0) h.closing
  rw [Money.amount_of (by decide), zero_sub] at ha
  have hlast := opposite_gives hu h.line
  rw [ha, neg_neg] at hlast
  have hall : List.Forall₂ (Gives c) (lines ++ [ln])
      (opposites chart (amounts (sorted bal)) ++ [(account, clearedSum chart (amounts (sorted bal)))]) :=
    List.rel_append hmade (.cons hlast .nil)
  obtain ⟨hposted, hsingle⟩ := linesFrom_given hall (entry_made h.made).2
  exact ⟨hsingle, hposted⟩

theorem close_accountSum (h : Closes env chart lg through account zero bal lines net ln e) (hsound : Sound chart lg)
    (hc : Single c lg.lines) (a : Bytes) : accountSum a e.lines =
      (if cleared chart a then -balanceOf bal a else 0) +
        if account = a then clearedSum chart (amounts bal) else 0 := by
  have hperm : (amounts (sorted bal)).Perm (amounts bal) := by
    rw [amounts_sorted]
    exact List.mergeSort_perm _ _
  have hnodup := (balances_tallied h.balances).nodup
  rw [← keys_amounts] at hnodup
  have hbal : sumOf (fun r => r.1 = a) Prod.snd (amounts bal) = balanceOf bal a := by
    rw [Tally.sumOf_key hnodup]
    unfold balanceOf amounts
    rw [Tally.find_map]
  have hcleared : clearedSum chart (amounts (sorted bal)) = clearedSum chart (amounts bal) := Tally.sumOf_perm hperm
  rw [accountSum_posted, (close_posted h hsound hc).2, Tally.sumOf_append, opposites_sum, Tally.sumOf_perm hperm, hbal,
    Tally.sumOf_cons, Tally.sumOf_nil, add_zero, hcleared]

/-- **A close clears the period**: the balances up to its date, before and after. -/
theorem close_balanceOf (h : Closes env chart lg through account zero bal lines net ln e) (hsound : Sound chart lg)
    (hc : Single c lg.lines) {bal' : List (Bytes × MoneyValue)}
    (hbal' : balances cs ⟨lg.entries ++ [e], some through⟩ (some through) = .ok bal') (a : Bytes) :
    balanceOf bal' a = (if cleared chart a then 0 else balanceOf bal a) +
      if account = a then clearedSum chart (amounts bal) else 0 := by
  have hdate : e.upto (some through) = true := by
    unfold Entry.upto
    rw [(entry_made h.made).1]
    exact atMost_self through
  have hcounted : counted ⟨lg.entries ++ [e], some through⟩ (some through) = counted lg (some through) ++ [e] := by
    unfold counted
    rw [List.filter_append, List.filter_cons_of_pos hdate, List.filter_nil]
  rw [balanceOf_tallied (balances_tallied hbal'), hcounted, List.flatMap_append]
  have hsum : accountSum a ((counted lg (some through)).flatMap Entry.lines ++ [e].flatMap Entry.lines) =
      accountSum a ((counted lg (some through)).flatMap Entry.lines) + accountSum a e.lines := by
    unfold accountSum
    rw [Tally.sumOf_append, List.flatMap_singleton]
  rw [hsum, close_accountSum h hsound hc, ← balanceOf_tallied (balances_tallied h.balances)]
  split_ifs <;> omega

end

/-! ## A ledger -/

/-- The lines that count on a date. -/
def linesUpto (lg : Ledger) (upto : Option DateTime) : List Line := (counted lg upto).flatMap Entry.lines

/-- The balances up to the date of a close, before and after it. -/
structure Cleared (chart : Chart) (account : Bytes) (bal bal' : List (Bytes × MoneyValue)) : Prop where
  cleared : ∀ a, Accounting.cleared chart a = true → balanceOf bal' a = 0
  equity : balanceOf bal' account = balanceOf bal account + clearedSum chart (amounts bal)
  others : ∀ a, Accounting.cleared chart a = false → a ≠ account → balanceOf bal' a = balanceOf bal a

theorem close_cleared {env : Env} {chart : Chart} {lg : Ledger} {through : DateTime} {account : Bytes}
    {zero net : MoneyValue} {bal bal' : List (Bytes × MoneyValue)} {lines : List Value} {ln : Value} {e : Entry}
    {c : BitVec 16 × BitVec 8} (h : Closes env chart lg through account zero bal lines net ln e)
    (hsound : Sound chart lg) (hc : Single c lg.lines)
    (hbal' : balances cs ⟨lg.entries ++ [e], some through⟩ (some through) = .ok bal') :
    Cleared chart account bal bal' := by
  have heffect := close_balanceOf h hsound hc hbal'
  have hequity : Accounting.cleared chart account = false := by
    obtain ⟨acct, hfind, hkind⟩ := h.equity
    unfold cleared
    rw [hfind]
    dsimp only
    rw [hkind]
    rfl
  refine ⟨fun a ha => ?_, ?_, fun a ha hne => ?_⟩
  · have hne : account ≠ a := by
      rintro rfl
      rw [ha] at hequity
      cases hequity
    rw [heffect, if_pos ha, if_neg hne, add_zero]
  · rw [heffect, if_neg (by rw [hequity]; decide), if_pos rfl]
  · rw [heffect, if_neg (by rw [ha]; decide), if_neg (Ne.symm hne), add_zero]

/-- **A ledger always balances and closing clears the period**, whatever is posted and closed, or refused. -/
theorem ledger_balances (chart : Chart) (ops : List (Env × Op)) :
    (∀ c, currencySum c (run chart ledger ops).lines = 0) ∧
    ((run chart ledger ops).entries ≠ [] → ∀ c, Single c (run chart ledger ops).lines →
      (TrialFits (run chart ledger ops).lines →
        ∀ cs, ∃ t, trialBalance cs (run chart ledger ops) = .ok t ∧ t.balanced = true) ∧
      (∀ asOf, SheetFits chart (linesUpto (run chart ledger ops) asOf) →
        ∀ cs, ∃ s, balanceSheet cs chart (run chart ledger ops) asOf = .ok s ∧ s.balanced = true) ∧
      ∀ env through equityAccount lg', close env chart (run chart ledger ops) through equityAccount = .ok lg' →
        ∃ account bal, equityAccount = .string account ∧
          balances env.cs (run chart ledger ops) (some through) = .ok bal ∧
          (AccountsFit (linesUpto lg' (some through)) →
            ∀ cs, ∃ bal', balances cs lg' (some through) = .ok bal' ∧ Cleared chart account bal bal') ∧
          ∀ later cs, balances cs (run chart lg' later) (some through) = balances cs lg' (some through)) := by
  have hsound : Sound chart (run chart ledger ops) := sound_run ops (sound_ledger chart)
  generalize run chart ledger ops = lg at hsound
  refine ⟨fun c => ?_, fun hne c hc => ⟨fun hfits cs => trialBalance_balances hsound hne hc hfits,
    fun asOf hfits cs => balanceSheet_balances hsound hne hc hfits, ?_⟩⟩
  · have hsum := hsound.currencySum (fun _ => true) c
    rwa [List.filter_true] at hsum
  · intro env through equityAccount lg' hclose
    obtain ⟨account, zero, bal, lines, net, ln, e, rfl, h, rfl⟩ := close_ok hclose
    refine ⟨account, bal, rfl, h.balances, fun hfits cs => ?_, fun later cs => ?_⟩
    · have hsingle : Single c (linesUpto ⟨lg.entries ++ [e], some through⟩ (some through)) := by
        refine single_counted (fun l hl => ?_)
        unfold Ledger.lines at hl
        rw [List.flatMap_append, List.flatMap_singleton, List.mem_append] at hl
        rcases hl with hl | hl
        · exact hc l hl
        · exact (close_posted h hsound hc).1 l hl
      obtain ⟨bal', hbal', -⟩ := @balances_ok cs _ _ _ _ rfl hsingle hfits
      exact ⟨bal', hbal', close_cleared h hsound hc hbal'⟩
    · rw [balances_counted, balances_counted]
      have hclosed : ClosedThrough through ⟨lg.entries ++ [e], some through⟩ := ⟨through, rfl, atMost_self through⟩
      rw [closed_run later hclosed]

/-! ## A month -/

def books : Chart :=
  [(text "1000", ⟨text "1000", text "Cash", .asset, .debit, rfl⟩),
    (text "3000", ⟨text "3000", text "Capital", .equity, .credit, rfl⟩),
    (text "4000", ⟨text "4000", text "Sales", .revenue, .credit, rfl⟩),
    (text "5000", ⟨text "5000", text "Rent", .expense, .debit, rfl⟩)]

def bare : Env := ⟨Currencies.start, fun _ => []⟩

def january (d : BitVec 32) : DateTime := ⟨2024, 1, d, 0, 0, 0, 0, 3⟩

def dollars (n : Int) : MoneyValue := Money.of (840, 2) (n * 1000000)

def moved (d : DateTime) (debit credit : String) (n : Int) : Env × Op :=
  (bare, .post (.datetime d) .unknown
    (.array 0 [given (text debit) .debit (dollars n), given (text credit) .credit (dollars n)]))

/-- A sale for a thousand dollars and a rent of four hundred. -/
def month : List (Env × Op) := [moved (january 10) "1000" "4000" 1000, moved (january 20) "5000" "1000" 400]

/-- The month's balances. -/
def monthBalances : List (Bytes × MoneyValue) :=
  [(text "1000", dollars 600), (text "4000", dollars (-1000)), (text "5000", dollars 400)]

theorem month_balances : balances bare.cs (run books ledger month) (some (january 31)) = .ok monthBalances := by
  have h : (balances bare.cs (run books ledger month) (some (january 31))).toOption = some monthBalances := by
    decide +kernel
  rcases hb : balances bare.cs (run books ledger month) (some (january 31)) with e | bal
  · rw [hb] at h
    cases h
  · rw [hb] at h
    rw [Option.some.inj h]

theorem month_close : ∃ lg', close bare books (run books ledger month) (january 31) (.string (text "3000")) = .ok lg' ∧
    AccountsFit (linesUpto lg' (some (january 31))) := by
  have hsorted : sorted monthBalances = monthBalances := sorted_of_pairwise (by decide +kernel)
  have hfits : (close bare books (run books ledger month) (january 31) (.string (text "3000"))).toOption.map
      (fun lg' => decide (AccountsFit (linesUpto lg' (some (january 31))))) = some true := by
    unfold close
    simp only [month_balances, bind, Except.bind, hsorted]
    decide +kernel
  rcases hclose : close bare books (run books ledger month) (january 31) (.string (text "3000")) with e | lg'
  · rw [hclose] at hfits
    cases hfits
  · rw [hclose] at hfits
    exact ⟨lg', rfl, of_decide_eq_true (Option.some.inj hfits)⟩

theorem month_trial : TrialFits (run books ledger month).lines where
  accounts := by decide +kernel
  rows := by
    have hsorted : sorted (accountTally (run books ledger month).lines) = accountTally (run books ledger month).lines :=
      sorted_of_pairwise (by decide +kernel)
    rw [hsorted]
    decide +kernel

theorem month_sheet : SheetFits books (linesUpto (run books ledger month) none) where
  accounts := by decide +kernel
  kinds := by
    intro kind p hp
    have hall : ∀ p ∈ (accountTally (linesUpto (run books ledger month) none)).inits,
        InLong (kindSum books kind p) := by
      cases kind <;> decide +kernel
    exact hall p ((List.mem_inits _ _).2 hp)
  earnings := by decide +kernel
  owed := by decide +kernel
  sum := by decide +kernel

/-- The reports of a month balance, its close is accepted, and what is posted later leaves what was closed. -/
theorem ledger_balances_month : (∃ t, trialBalance bare.cs (run books ledger month) = .ok t ∧ t.balanced = true) ∧
    (∃ s, balanceSheet bare.cs books (run books ledger month) none = .ok s ∧ s.balanced = true) ∧
    ∃ lg' bal', close bare books (run books ledger month) (january 31) (.string (text "3000")) = .ok lg' ∧
      balances bare.cs lg' (some (january 31)) = .ok bal' ∧ Cleared books (text "3000") monthBalances bal' ∧
      ∀ later, balances bare.cs (run books lg' later) (some (january 31)) = .ok bal' := by
  obtain ⟨-, h⟩ := ledger_balances books month
  obtain ⟨htrial, hsheet, hclose⟩ := h (by decide +kernel) (840, 2) (by decide +kernel)
  obtain ⟨lg', hlg, hfits⟩ := month_close
  obtain ⟨account, bal, haccount, hbal, hcleared, hlater⟩ := hclose bare (january 31) _ lg' hlg
  obtain rfl := Except.ok.inj (month_balances.symm.trans hbal)
  obtain rfl := Same.Value.string.inj haccount
  obtain ⟨bal', hbal', hcleared⟩ := hcleared hfits bare.cs
  refine ⟨htrial month_trial bare.cs, hsheet none month_sheet bare.cs, lg', bal', hlg, hbal', hcleared, fun later => ?_⟩
  exact (hlater later bare.cs).trans hbal'

end Accounting
end Gbasic
