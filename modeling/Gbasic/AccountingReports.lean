import Gbasic.AccountingRun
/-!
# AccountingReports — statements balance

The balances of a ledger of one currency are the sums by account, so what the statements total comes to what its lines
come to, which is zero.  They answer where the sums they form are in range.
-/
namespace Gbasic
namespace Accounting

open Eval (Bytes Raise MoneyValue DateTime Currencies)
open Money (InLong amount add_of amount_of unit_of sub_of)
open Tally (find put sumOf tally)

/-! ## Balances of one currency -/

def accountTally (lines : List Line) : List (Bytes × Int) := tally Line.account (fun l => amount l.amount) lines

def balanceOf (bal : List (Bytes × MoneyValue)) (account : Bytes) : Int := ((find account bal).map amount).getD 0

def accountSum (account : Bytes) (lines : List Line) : Int :=
  sumOf (fun l => l.account = account) (fun l => amount l.amount) lines

/-- Every balance is in range, after each of the lines. -/
def AccountsFit (lines : List Line) : Prop := ∀ p, p <+: lines → ∀ r ∈ accountTally p, InLong r.2

instance (lines : List Line) : Decidable (AccountsFit lines) :=
  decidable_of_iff (∀ p ∈ lines.inits, ∀ r ∈ accountTally p, InLong r.2) (by
    unfold AccountsFit
    simp only [List.mem_inits])

/-- The lines have one currency. -/
def Single (c : BitVec 16 × BitVec 8) (lines : List Line) : Prop := ∀ l ∈ lines, Money.unit l.amount = c

instance (c : BitVec 16 × BitVec 8) (lines : List Line) : Decidable (Single c lines) :=
  inferInstanceAs (Decidable (∀ l ∈ lines, _))

section
variable {cs : Currencies} {c : BitVec 16 × BitVec 8} {lines : List Line} {bal : List (Bytes × MoneyValue)}

theorem balanceOf_tallied (h : Tallied Line.account Line.amount lines bal) (account : Bytes) :
    balanceOf bal account = accountSum account lines := by
  unfold balanceOf accountSum
  rw [← Tally.find_map, ← Tally.find_tally]
  exact congrArg (fun l => (find account l).getD 0) h.tallied

theorem Tallied.unit (h : Tallied Line.account Line.amount lines bal) (hc : Single c lines) {k : Bytes} {m : MoneyValue}
    (hm : (k, m) ∈ bal) : Money.unit m = c := by
  obtain ⟨l, hl, hk⟩ := (h.mem_keys k).1 (List.mem_map.2 ⟨_, hm, rfl⟩)
  rw [← h.units k m hm l hl hk]
  exact hc l hl

theorem Tallied.answers (h : Tallied Line.account Line.amount lines bal) (hc : Single c lines) {l : Line}
    (hl : Money.unit l.amount = c)
    (hfits : InLong ((find l.account (amounts bal)).getD 0 + amount l.amount)) :
    ∃ bal', bump cs l.account l.amount bal = .ok bal' := by
  obtain ⟨m, hrun, hunit⟩ : ∃ m, running l.account l.amount bal = .ok m ∧ Money.unit m = c := by
    unfold running
    rcases hfind : find l.account bal with _ | m
    · exact ⟨_, Money.times_zero _, hl⟩
    · exact ⟨m, rfl, h.unit hc (Tally.mem_of_find hfind)⟩
  rw [← (h.kept hrun).1] at hfits
  unfold bump
  rw [hrun]
  dsimp only
  rw [add_of hunit hl hfits]
  exact ⟨_, rfl⟩

theorem balances_run : ∀ {rest done : List Line} {bal : List (Bytes × MoneyValue)}, Single c (done ++ rest) →
    AccountsFit (done ++ rest) → Tallied Line.account Line.amount done bal →
      ∃ bal', rest.foldlM (fun out l => bump cs l.account l.amount out) bal = .ok bal'
  | [], _, bal, _, _, _ => ⟨bal, rfl⟩
  | l :: rest, done, bal, hc, hfits, h => by
    have hin : InLong ((find l.account (amounts bal)).getD 0 + amount l.amount) := by
      refine hfits (done ++ [l]) ⟨rest, by simp⟩ (l.account, _) ?_
      rw [h.tallied]
      refine Tally.mem_of_find ?_
      rw [accountTally, Tally.tally_snoc, Tally.find_put, if_pos rfl]
    have hdone : Single c done := fun l' hl' => hc l' (List.mem_append_left _ hl')
    obtain ⟨next, hb⟩ := @Tallied.answers cs _ _ _ h hdone _
      (hc l (List.mem_append_right _ (List.mem_cons_self ..))) hin
    rw [List.foldlM_cons, hb]
    rw [List.append_cons] at hc hfits
    exact balances_run hc hfits (h.snoc hb)

/-- **The balances of one currency answer** where they stay in range, and are the sums by account. -/
theorem balances_ok {lg : Ledger} {upto : Option DateTime} (hlines : (counted lg upto).flatMap Entry.lines = lines)
    (hc : Single c lines) (hfits : AccountsFit lines) :
    ∃ bal, balances cs lg upto = .ok bal ∧ Tallied Line.account Line.amount lines bal := by
  obtain ⟨bal, hbal⟩ := @balances_run cs _ lines [] _ hc hfits Tallied.nil
  refine ⟨bal, ?_, by simpa using Tallied.nil.run hbal⟩
  rw [balances_counted, hlines]
  exact hbal

theorem balances_tallied {lg : Ledger} {upto : Option DateTime} (h : balances cs lg upto = .ok bal) :
    Tallied Line.account Line.amount ((counted lg upto).flatMap Entry.lines) bal := by
  rw [balances_counted] at h
  simpa using Tallied.nil.run h

theorem zeroOf_ok {chart : Chart} {lg : Ledger} (hsound : Sound chart lg) (hne : lg.entries ≠ [])
    (hc : Single c lg.lines) : zeroOf lg = .ok (Money.of c 0) := by
  rcases lg with ⟨_ | ⟨e, es⟩, through⟩
  · exact absurd rfl hne
  · have hsome := (hsound e (List.mem_cons_self ..)).some
    rcases e with ⟨date, memo, _ | ⟨l, ls⟩⟩
    · exact absurd rfl hsome
    · have hl : Money.unit l.amount = c := hc l (by unfold Ledger.lines; simp)
      unfold zeroOf
      dsimp only
      rw [Money.times_zero, hl]
      rfl

end

/-! ## The trial balance -/

def debitSum (rows : List (Bytes × Int)) : Int := (rows.map (fun r => max 0 r.2)).sum

def creditSum (rows : List (Bytes × Int)) : Int := (rows.map (fun r => max 0 (-r.2))).sum

theorem debitSum_sub (rows : List (Bytes × Int)) : debitSum rows - creditSum rows = (rows.map Prod.snd).sum := by
  unfold debitSum creditSum
  induction rows with
  | nil => rfl
  | cons r rows ih =>
    simp only [List.map_cons, List.sum_cons]
    rw [← ih]
    omega

structure RowsFit (debits credits : Int) (rows : List (Bytes × Int)) : Prop where
  debits : ∀ p, p <+: rows → InLong (debits + debitSum p)
  credits : ∀ p, p <+: rows → InLong (credits + creditSum p)

instance (d c : Int) (rows : List (Bytes × Int)) : Decidable (RowsFit d c rows) :=
  decidable_of_iff ((∀ p ∈ rows.inits, InLong (d + debitSum p)) ∧ ∀ p ∈ rows.inits, InLong (c + creditSum p)) (by
    simp only [List.mem_inits]
    exact ⟨fun h => ⟨h.1, h.2⟩, fun h => ⟨h.debits, h.credits⟩⟩)

theorem RowsFit.tail {debits credits : Int} {r : Bytes × Int} {rows : List (Bytes × Int)}
    (h : RowsFit debits credits (r :: rows)) : RowsFit (debits + max 0 r.2) (credits + max 0 (-r.2)) rows where
  debits := by
    intro p hp
    have := h.debits (r :: p) (List.cons_prefix_cons.2 ⟨rfl, hp⟩)
    rwa [debitSum, List.map_cons, List.sum_cons, ← add_assoc] at this
  credits := by
    intro p hp
    have := h.credits (r :: p) (List.cons_prefix_cons.2 ⟨rfl, hp⟩)
    rwa [creditSum, List.map_cons, List.sum_cons, ← add_assoc] at this

section
variable {cs : Currencies} {c : BitVec 16 × BitVec 8}

theorem trialRows_ok : ∀ {bal : List (Bytes × MoneyValue)} {rows : List Row} {debits credits : MoneyValue},
    (∀ r ∈ bal, Money.unit r.2 = c) → Money.unit debits = c → Money.unit credits = c → 0 ≤ amount credits →
      RowsFit (amount debits) (amount credits) (amounts bal) →
        ∃ rows' debits' credits',
          trialRows cs (Money.of c 0) (rows, debits, credits) bal = .ok (rows', debits', credits') ∧
          Money.unit debits' = c ∧ Money.unit credits' = c ∧
          amount debits' = amount debits + debitSum (amounts bal) ∧
          amount credits' = amount credits + creditSum (amounts bal)
  | [], rows, debits, credits, _, hd, hcr, _, _ =>
    ⟨rows, debits, credits, rfl, hd, hcr, (add_zero _).symm, (add_zero _).symm⟩
  | (code, m) :: bal, rows, debits, credits, hbal, hd, hcr, hpos, hfits => by
    have hm : Money.unit m = c := hbal _ (List.mem_cons_self ..)
    have hzero : amount (Money.of c 0) = 0 := amount_of (by decide)
    have htail := RowsFit.tail hfits
    have hd1 := htail.debits [] List.nil_prefix
    have hc1 := htail.credits [] List.nil_prefix
    simp only [debitSum, creditSum, List.map_nil, List.sum_nil, add_zero] at hd1 hc1
    have hdsum : debitSum (amounts ((code, m) :: bal)) = max 0 (amount m) + debitSum (amounts bal) := rfl
    have hcsum : creditSum (amounts ((code, m) :: bal)) = max 0 (-amount m) + creditSum (amounts bal) := rfl
    -- the rest of the rows, from the totals with this one
    have hnext : ∀ {d' c' : MoneyValue} (rows' : List Row), Money.unit d' = c → Money.unit c' = c →
        amount d' = amount debits + max 0 (amount m) →
        amount c' = amount credits + max 0 (-amount m) →
          ∃ rows'' debits' credits', trialRows cs (Money.of c 0) (rows', d', c') bal = .ok (rows'', debits', credits') ∧
            Money.unit debits' = c ∧ Money.unit credits' = c ∧
            amount debits' = amount debits + debitSum (amounts ((code, m) :: bal)) ∧
            amount credits' = amount credits + creditSum (amounts ((code, m) :: bal)) := by
      intro d' c' rows' hd' hc' hda hca
      have hpos' : 0 ≤ amount c' := by omega
      obtain ⟨rows'', debits', credits', hrun, hu, hu', hv, hv'⟩ := @trialRows_ok _ rows' _ _
        (fun r hr => hbal r (List.mem_cons_of_mem _ hr)) hd' hc' hpos' (by rw [hda, hca]; exact htail)
      refine ⟨rows'', debits', credits', hrun, hu, hu', ?_, ?_⟩
      · rw [hv, hda, hdsum, add_assoc]
      · rw [hv', hca, hcsum, add_assoc]
    unfold trialRows
    rw [Money.greater_same (hm.trans (unit_of 0).symm), Money.less_same (hm.trans (unit_of 0).symm), hzero]
    dsimp only
    rcases lt_trichotomy (amount m) 0 with hlt | heq | hgt
    · -- a credit
      have hmax : max 0 (-amount m) = -amount m := max_eq_right (by omega)
      have hneg : InLong (-amount m) := by
        unfold InLong at hc1 ⊢
        omega
      have hc2 : InLong (amount credits + amount (Money.of c (-amount m))) := by
        rwa [amount_of hneg, ← hmax]
      rw [decide_eq_false (by omega), decide_eq_true hlt, if_neg Bool.false_ne_true]
      dsimp only
      rw [Money.times_neg_of hm hneg]
      dsimp only
      rw [add_of hcr (unit_of _) hc2]
      refine hnext _ hd (unit_of _) (by omega) ?_
      rw [amount_of hc2, amount_of hneg, hmax]
    · rw [decide_eq_false (by omega), decide_eq_false (by omega), if_neg Bool.false_ne_true]
      exact hnext _ hd hcr (by omega) (by omega)
    · -- a debit
      have hmax : max 0 (amount m) = amount m := max_eq_right hgt.le
      rw [hmax] at hd1
      rw [decide_eq_true hgt, decide_eq_false (by omega), if_pos rfl, add_of hd hm hd1]
      refine hnext _ (unit_of _) hcr ?_ (by omega)
      rw [amount_of hd1, hmax]

/-- The sums that a trial balance forms. -/
structure TrialFits (lines : List Line) : Prop where
  accounts : AccountsFit lines
  rows : RowsFit 0 0 (sorted (accountTally lines))

theorem amounts_sorted (bal : List (Bytes × MoneyValue)) : amounts (sorted bal) = sorted (amounts bal) := by
  unfold amounts sorted
  exact List.map_mergeSort (fun a _ b _ => rfl)

theorem mem_sorted {α : Type} {r : Bytes × α} {bal : List (Bytes × α)} : r ∈ sorted bal ↔ r ∈ bal :=
  (List.mergeSort_perm _ _).mem_iff

theorem sorted_of_pairwise {α : Type} {bal : List (Bytes × α)}
    (h : bal.Pairwise (fun a b => decide (Same.stringCompare a.1 b.1 ≠ .gt) = true)) : sorted bal = bal :=
  List.mergeSort_of_pairwise h

theorem sum_sorted (rows : List (Bytes × Int)) : ((sorted rows).map Prod.snd).sum = (rows.map Prod.snd).sum :=
  ((List.mergeSort_perm _ _).map _).sum_eq

theorem tally_zero {chart : Chart} {lg : Ledger} (hsound : Sound chart lg) (upto : Option DateTime)
    (hc : Single c ((counted lg upto).flatMap Entry.lines)) :
    ((accountTally ((counted lg upto).flatMap Entry.lines)).map Prod.snd).sum = 0 := by
  have hzero := hsound.currencySum (Entry.upto upto) c
  unfold accountTally
  rw [Tally.sum_tally]
  exact (Tally.sumOf_all hc).symm.trans hzero

/-- **A trial balance balances.** -/
theorem trialBalance_balances {chart : Chart} {lg : Ledger} (hsound : Sound chart lg) (hne : lg.entries ≠ [])
    (hc : Single c lg.lines) (hfits : TrialFits lg.lines) : ∃ t, trialBalance cs lg = .ok t ∧ t.balanced = true := by
  have hall : (counted lg none).flatMap Entry.lines = lg.lines := by
    unfold counted Entry.upto
    rw [List.filter_true]
    rfl
  obtain ⟨bal, hbal, htally⟩ := @balances_ok cs _ _ _ _ hall hc hfits.accounts
  have hrows : RowsFit (amount (Money.of c 0)) (amount (Money.of c 0)) (amounts (sorted bal)) := by
    rw [amount_of (by decide), amounts_sorted, htally.tallied]
    exact hfits.rows
  obtain ⟨rows, debits, credits, hrun, hu, hu', hv, hv'⟩ := @trialRows_ok cs _ _ [] _ _
    (fun r hr => htally.unit hc (mem_sorted.1 hr)) (unit_of 0) (unit_of 0)
    (by rw [amount_of (by decide)]) hrows
  unfold trialBalance
  rw [zeroOf_ok hsound hne hc, hbal]
  dsimp only
  rw [hrun]
  refine ⟨_, rfl, Money.same_iff.2 ⟨hu.trans hu'.symm, ?_⟩⟩
  have hzero := tally_zero hsound none (hall ▸ hc)
  rw [hall, ← sum_sorted, ← debitSum_sub] at hzero
  rw [hv, hv', amounts_sorted, htally.tallied]
  unfold accountTally at hzero
  omega

end

/-! ## The balance sheet -/

def signed (chart : Chart) (kind : Kind) (r : Bytes × Int) : Int :=
  match find r.1 chart with
  | some acct => if acct.kind = kind then if acct.side = .debit then r.2 else -r.2 else 0
  | none => 0

def kindSum (chart : Chart) (kind : Kind) (rows : List (Bytes × Int)) : Int := (rows.map (signed chart kind)).sum

theorem kindSum_cons (chart : Chart) (kind : Kind) (r : Bytes × Int) (rows : List (Bytes × Int)) :
    kindSum chart kind (r :: rows) = signed chart kind r + kindSum chart kind rows := rfl

/-- **The identity of a balance sheet**: assets are liabilities, equity and earnings, and what does not balance. -/
theorem kindSum_identity {chart : Chart} : ∀ {rows : List (Bytes × Int)}, (∀ r ∈ rows, (find r.1 chart).isSome) →
    kindSum chart .asset rows = kindSum chart .liability rows + kindSum chart .equity rows +
      (kindSum chart .revenue rows - kindSum chart .expense rows) + (rows.map Prod.snd).sum
  | [], _ => rfl
  | r :: rows, h => by
    have ih := kindSum_identity (fun r' hr' => h r' (List.mem_cons_of_mem _ hr'))
    obtain ⟨acct, hacct⟩ := Option.isSome_iff_exists.1 (h r (List.mem_cons_self ..))
    have hone : signed chart .asset r = signed chart .liability r + signed chart .equity r +
        (signed chart .revenue r - signed chart .expense r) + r.2 := by
      unfold signed
      rw [hacct]
      dsimp only
      rw [acct.normal]
      rcases acct.kind <;> simp [normalSide]
    simp only [kindSum_cons, List.map_cons, List.sum_cons]
    omega

section
variable {cs : Currencies} {c : BitVec 16 × BitVec 8} {chart : Chart}

theorem kindTotal_ok {kind : Kind} : ∀ {bal : List (Bytes × MoneyValue)} {total : MoneyValue},
    (∀ r ∈ bal, Money.unit r.2 = c) → Money.unit total = c →
      (∀ p, p <+: amounts bal → InLong (amount total + kindSum chart kind p)) →
        ∃ t, kindTotal cs chart kind total bal = .ok t ∧ Money.unit t = c ∧
          amount t = amount total + kindSum chart kind (amounts bal)
  | [], total, _, hu, _ => ⟨total, rfl, hu, (add_zero _).symm⟩
  | (code, m) :: bal, total, hbal, hu, hfits => by
    have hm : Money.unit m = c := hbal _ (List.mem_cons_self ..)
    have hcons : kindSum chart kind (amounts ((code, m) :: bal)) =
        signed chart kind (code, amount m) + kindSum chart kind (amounts bal) := rfl
    have hone : InLong (amount total + signed chart kind (code, amount m)) := by
      have := hfits [(code, amount m)] (List.cons_prefix_cons.2 ⟨rfl, List.nil_prefix⟩)
      rwa [kindSum_cons, kindSum, List.map_nil, List.sum_nil, add_zero] at this
    have hnext : ∀ {total' : MoneyValue}, Money.unit total' = c →
        amount total' = amount total + signed chart kind (code, amount m) →
          ∃ t, kindTotal cs chart kind total' bal = .ok t ∧ Money.unit t = c ∧
            amount t = amount total + kindSum chart kind (amounts ((code, m) :: bal)) := by
      intro total' hu' hv
      obtain ⟨t, ht, htu, htv⟩ := @kindTotal_ok kind _ _ (fun r hr => hbal r (List.mem_cons_of_mem _ hr)) hu'
        (fun p hp => by
          have := hfits ((code, amount m) :: p) (List.cons_prefix_cons.2 ⟨rfl, hp⟩)
          rwa [kindSum_cons, ← add_assoc, ← hv] at this)
      refine ⟨t, ht, htu, ?_⟩
      rw [htv, hv, hcons, add_assoc]
    unfold kindTotal
    unfold signed at hone hnext
    rcases hfind : find code chart with _ | acct
    · rw [hfind] at hnext
      exact hnext hu (add_zero _).symm
    · rw [hfind] at hone hnext
      dsimp only at hone hnext ⊢
      by_cases hkind : acct.kind = kind
      · rw [if_pos hkind] at hone hnext ⊢
        by_cases hside : acct.side = .debit
        · rw [if_pos hside] at hone hnext ⊢
          rw [add_of hu hm hone]
          exact hnext (unit_of _) (amount_of hone)
        · rw [if_neg hside] at hone hnext ⊢
          rw [← sub_eq_add_neg] at hone
          rw [sub_of hu hm hone]
          exact hnext (unit_of _) ((amount_of hone).trans (sub_eq_add_neg _ _))
      · rw [if_neg hkind] at hnext ⊢
        exact hnext hu (add_zero _).symm

/-- The sums that a balance sheet forms. -/
structure SheetFits (chart : Chart) (lines : List Line) : Prop where
  accounts : AccountsFit lines
  kinds : ∀ kind p, p <+: accountTally lines → InLong (kindSum chart kind p)
  earnings : InLong (kindSum chart .revenue (accountTally lines) - kindSum chart .expense (accountTally lines))
  owed : InLong (kindSum chart .liability (accountTally lines) + kindSum chart .equity (accountTally lines))
  sum : InLong (kindSum chart .liability (accountTally lines) + kindSum chart .equity (accountTally lines) +
    (kindSum chart .revenue (accountTally lines) - kindSum chart .expense (accountTally lines)))

/-- **A balance sheet balances**, on any date. -/
theorem balanceSheet_balances {lg : Ledger} (hsound : Sound chart lg) (hne : lg.entries ≠ [])
    (hc : Single c lg.lines) {asOf : Option DateTime}
    (hfits : SheetFits chart ((counted lg asOf).flatMap Entry.lines)) :
    ∃ s, balanceSheet cs chart lg asOf = .ok s ∧ s.balanced = true := by
  have hsub : Single c ((counted lg asOf).flatMap Entry.lines) := by
    intro l hl
    obtain ⟨e, he, hle⟩ := List.mem_flatMap.1 hl
    exact hc l (List.mem_flatMap.2 ⟨e, List.mem_of_mem_filter he, hle⟩)
  obtain ⟨bal, hbal, htally⟩ := @balances_ok cs _ _ _ _ rfl hsub hfits.accounts
  have htotal : ∀ kind, ∃ t, kindTotal cs chart kind (Money.of c 0) bal = .ok t ∧ Money.unit t = c ∧
      amount t = kindSum chart kind (accountTally ((counted lg asOf).flatMap Entry.lines)) := by
    intro kind
    obtain ⟨t, ht, hu, hv⟩ := @kindTotal_ok cs _ chart kind _ (Money.of c 0)
      (fun r hr => htally.unit hsub hr) (unit_of 0) (fun p hp => by
        rw [amount_of (by decide), zero_add]
        rw [htally.tallied] at hp
        exact hfits.kinds kind p hp)
    refine ⟨t, ht, hu, ?_⟩
    rw [hv, amount_of (by decide), zero_add, htally.tallied]
    rfl
  obtain ⟨assets, hassets, hau, hav⟩ := htotal .asset
  obtain ⟨liabilities, hliabilities, hlu, hlv⟩ := htotal .liability
  obtain ⟨equity, hequity, hequ, heqv⟩ := htotal .equity
  obtain ⟨revenue, hrevenue, hru, hrv⟩ := htotal .revenue
  obtain ⟨expenses, hexpenses, hxu, hxv⟩ := htotal .expense
  have hearn : InLong (amount revenue - amount expenses) := by
    rw [hrv, hxv]
    exact hfits.earnings
  have howed : InLong (amount liabilities + amount equity) := by
    rw [hlv, heqv]
    exact hfits.owed
  have hsum : InLong (amount (Money.of c (amount liabilities + amount equity)) +
      amount (Money.of c (amount revenue - amount expenses))) := by
    rw [amount_of hearn, amount_of howed, hrv, hxv, hlv, heqv]
    exact hfits.sum
  have hsheet : ∃ s, sheetOf cs chart (Money.of c 0) bal = .ok s ∧ s.balanced = true := by
    unfold sheetOf
    rw [hassets, hliabilities, hequity, hrevenue, hexpenses]
    simp only [bind, Except.bind]
    rw [sub_of hru hxu hearn]
    dsimp only
    rw [add_of hlu hequ howed]
    dsimp only
    rw [add_of (unit_of _) (unit_of _) hsum]
    refine ⟨_, rfl, Money.same_iff.2 ⟨hau, ?_⟩⟩
    have hzero := tally_zero hsound asOf hsub
    have hchart : ∀ r ∈ accountTally ((counted lg asOf).flatMap Entry.lines), (find r.1 chart).isSome := by
      intro r hr
      obtain ⟨l, hl, hk⟩ := (Tally.mem_keys_tally _ _ r.1 _).1 (List.mem_map.2 ⟨r, hr, rfl⟩)
      obtain ⟨e, he, hle⟩ := List.mem_flatMap.1 hl
      rw [← hk]
      exact (hsound e (List.mem_of_mem_filter he)).accounts l hle
    have hident := kindSum_identity hchart
    rw [amount_of hsum, amount_of hearn, amount_of howed, hav, hrv, hxv, hlv, heqv]
    omega
  obtain ⟨s, hs, hb⟩ := hsheet
  unfold balanceSheet
  rw [zeroOf_ok hsound hne hc, hbal]
  dsimp only
  rw [hs]
  exact ⟨s, rfl, hb⟩

end

end Accounting
end Gbasic
