import Gbasic.Accounting
/-!
# AccountingRun — a ledger balances

An entry that is made balances in each currency, so every ledger that posts and closes lead to does: what a period's
lines come to is zero, whatever was refused on the way.
-/
namespace Gbasic
namespace Accounting

open Eval (Bytes Raise MoneyValue DateTime Currencies currencyAlphaOf)
open Same (Value datetimeCompareExact)
open Tally (find put sumOf)

variable {chart : Chart} {env : Env} {lg : Ledger} {a b : DateTime}

/-! ## Sums kept by a key -/

def amounts (out : List (Bytes × MoneyValue)) : List (Bytes × Int) := out.map (fun r => (r.1, Money.amount r.2))

structure Tallied {ι : Type} (key : ι → Bytes) (amount : ι → MoneyValue) (items : List ι)
    (out : List (Bytes × MoneyValue)) : Prop where
  tallied : amounts out = Tally.tally key (fun i => Money.amount (amount i)) items
  units : ∀ k m, (k, m) ∈ out → ∀ i ∈ items, key i = k → Money.unit (amount i) = Money.unit m

theorem keys_amounts (out : List (Bytes × MoneyValue)) : (amounts out).map Prod.fst = out.map Prod.fst := by
  unfold amounts
  rw [List.map_map]
  rfl

section
variable {ι : Type} {key : ι → Bytes} {amount : ι → MoneyValue} {cs : Currencies} {items : List ι}
  {out out' : List (Bytes × MoneyValue)}

theorem Tallied.nil : Tallied key amount [] [] where
  tallied := rfl
  units := by simp

theorem Tallied.nodup (h : Tallied key amount items out) : (out.map Prod.fst).Nodup := by
  rw [← keys_amounts, h.tallied]
  exact Tally.nodup_tally _ _ _

theorem Tallied.mem_keys (h : Tallied key amount items out) (k : Bytes) :
    k ∈ out.map Prod.fst ↔ ∃ i ∈ items, key i = k := by
  rw [← keys_amounts, h.tallied]
  exact Tally.mem_keys_tally _ _ _ _

theorem Tallied.sum (h : Tallied key amount items out) {k : Bytes} {m : MoneyValue} (hm : (k, m) ∈ out) :
    Money.amount m = sumOf (fun i => key i = k) (fun i => Money.amount (amount i)) items := by
  refine Tally.mem_tally key _ ?_
  rw [← h.tallied]
  exact List.mem_map.2 ⟨_, hm, rfl⟩

theorem Tallied.kept (h : Tallied key amount items out) {i : ι} {m : MoneyValue}
    (hm : running (key i) (amount i) out = .ok m) :
    Money.amount m = ((find (key i) (amounts out)).getD 0) ∧
      ∀ j ∈ items, key j = key i → Money.unit (amount j) = Money.unit m := by
  unfold running at hm
  unfold amounts
  rw [Tally.find_map]
  rcases hfind : find (key i) out with _ | r
  · rw [hfind] at hm
    obtain rfl := Except.ok.inj ((Money.times_zero _).symm.trans hm)
    refine ⟨Money.amount_of (by decide), fun j hj hk => ?_⟩
    exact absurd ((h.mem_keys _).2 ⟨j, hj, hk⟩) (Tally.find_eq_none.1 hfind)
  · rw [hfind] at hm
    obtain rfl := Except.ok.inj hm
    exact ⟨rfl, h.units _ _ (Tally.mem_of_find hfind)⟩

theorem Tallied.snoc (h : Tallied key amount items out) {i : ι} (hb : bump cs (key i) (amount i) out = .ok out') :
    Tallied key amount (items ++ [i]) out' := by
  unfold bump at hb
  rcases hrun : running (key i) (amount i) out with e | m
  · rw [hrun] at hb
    cases hb
  rw [hrun] at hb
  dsimp only at hb
  rcases hadd : Money.add cs m (amount i) with e | sum
  · rw [hadd] at hb
    cases hb
  rw [hadd] at hb
  obtain rfl := Except.ok.inj hb
  obtain ⟨hvalue, hunits⟩ := h.kept hrun
  obtain ⟨hu, -, hu', hsum⟩ := Money.add_ok.1 hadd
  refine ⟨?_, fun k m' hmem j hj hk => ?_⟩
  · rw [Tally.tally_snoc, ← h.tallied, ← hvalue, ← hsum]
    exact Tally.put_map _ _ _ _
  · have hfind := Tally.find_of_mem (Tally.nodup_put (k := key i) (v := sum) h.nodup) hmem
    rw [Tally.find_put] at hfind
    split_ifs at hfind with hkey
    · obtain rfl := Option.some.inj hfind
      rw [hu']
      rcases List.mem_append.1 hj with hj | hj
      · exact hunits j hj (hk.trans hkey.symm)
      · rw [List.mem_singleton.1 hj, hu]
    · rcases List.mem_append.1 hj with hj | hj
      · exact h.units k m' (Tally.mem_of_find hfind) j hj hk
      · rw [List.mem_singleton.1 hj] at hk
        exact absurd hk hkey

theorem Tallied.run : ∀ {rest items : List ι} {out out' : List (Bytes × MoneyValue)}, Tallied key amount items out →
    rest.foldlM (fun out i => bump cs (key i) (amount i) out) out = .ok out' →
      Tallied key amount (items ++ rest) out'
  | [], items, out, out', h, hr => by
    obtain rfl := Except.ok.inj hr
    rwa [List.append_nil]
  | i :: rest, items, out, out', h, hr => by
    rw [List.foldlM_cons] at hr
    rcases hb : bump cs (key i) (amount i) out with e | next
    · rw [hb] at hr
      cases hr
    · rw [hb] at hr
      have hrun := (h.snoc hb).run hr
      rwa [List.append_assoc] at hrun

end

/-! ## What is accepted as an entry -/

structure LineOk (cs : Currencies) (chart : Chart) (l : Line) : Prop where
  account : (find l.account chart).isSome
  currency : l.currency = currencyOf cs l.amount

theorem currencyOf_unit {cs : Currencies} {l r : MoneyValue} (h : Money.unit l = Money.unit r) :
    currencyOf cs l = currencyOf cs r := by
  have hnumber : l.currency = r.currency := congrArg Prod.fst h
  unfold currencyOf
  rw [hnumber]

theorem sided_ok {place account : Bytes} {debit credit : Value} {l : Line}
    (h : sided env place account debit credit = .ok l) :
    l.account = account ∧ l.currency = currencyOf env.cs l.amount := by
  unfold sided at h
  split_ifs at h with h1 h2 h3
  · cases debit with
    | money amount =>
      obtain rfl := Except.ok.inj h
      exact ⟨rfl, rfl⟩
    | _ => cases h
  · cases credit with
    | money amount =>
      dsimp only at h
      rcases htimes : Money.times amount (-1) with e | signed
      · rw [htimes] at h
        cases h
      · rw [htimes] at h
        obtain rfl := Except.ok.inj h
        exact ⟨rfl, (currencyOf_unit (Money.times_neg.1 htimes).2.1).symm⟩
    | _ => cases h

theorem line_ok {ln : Value} {index : Nat} {l : Line} (h : line env chart ln index = .ok l) :
    LineOk env.cs chart l := by
  unfold line at h
  cases ln with
  | record fields =>
    dsimp only at h
    split_ifs at h with h1
    rcases hk : keyOf (field fields "account") with e | account
    · rw [hk] at h
      cases h
    rw [hk] at h
    dsimp only at h
    split_ifs at h with h2
    obtain ⟨rfl, hcur⟩ := sided_ok h
    rw [Option.isNone_iff_eq_none] at h2
    exact ⟨Option.isSome_iff_ne_none.2 h2, hcur⟩
  | _ => cases h

theorem linesFrom_ok {env : Env} {chart : Chart} : ∀ {items : List Value} {i : Nat} {ls : List Line},
    linesFrom env chart i items = .ok ls → ls.length = items.length ∧ ∀ l ∈ ls, LineOk env.cs chart l
  | [], _, _, h => by
    obtain rfl := Except.ok.inj h
    exact ⟨rfl, fun l hl => by cases hl⟩
  | ln :: items, i, ls, h => by
    unfold linesFrom at h
    rcases hl : line env chart ln i with e | l
    · rw [hl] at h
      cases h
    rw [hl] at h
    dsimp only at h
    rcases hls : linesFrom env chart (i + 1) items with e | rest
    · rw [hls] at h
      cases h
    rw [hls] at h
    obtain rfl := Except.ok.inj h
    obtain ⟨hlen, hall⟩ := linesFrom_ok hls
    refine ⟨congrArg Nat.succ hlen, fun l' hl' => ?_⟩
    rcases List.mem_cons.1 hl' with rfl | hmem
    · exact line_ok hl
    · exact hall l' hmem

theorem checkTotals_ok {env : Env} : ∀ {totals : List (Bytes × MoneyValue)}, checkTotals env totals = .ok () →
    ∀ k m, (k, m) ∈ totals → Money.amount m = 0
  | [], _, _, _, hmem => by cases hmem
  | (code, total) :: totals, h, k, m, hmem => by
    unfold checkTotals at h
    rw [Money.times_zero] at h
    dsimp only at h
    split_ifs at h with hsame
    rw [Bool.not_eq_false, Money.same_iff] at hsame
    rcases List.mem_cons.1 hmem with heq | hmem
    · cases heq
      rw [hsame.2]
      exact Money.amount_of (by decide)
    · exact checkTotals_ok h k m hmem

/-! ## An entry balances -/

/-- What the lines of a currency come to. -/
def currencySum (c : BitVec 16 × BitVec 8) (lines : List Line) : Int :=
  sumOf (fun l => Money.unit l.amount = c) (fun l => Money.amount l.amount) lines

structure Balances (chart : Chart) (lines : List Line) : Prop where
  some : lines ≠ []
  accounts : ∀ l ∈ lines, (find l.account chart).isSome
  balanced : ∀ c, currencySum c lines = 0

theorem currencySum_zero {cs : Currencies} {ls : List Line} {totals : List (Bytes × MoneyValue)}
    (hall : ∀ l ∈ ls, LineOk cs chart l) (htally : Tallied Line.currency Line.amount ls totals)
    (hzero : ∀ k m, (k, m) ∈ totals → Money.amount m = 0) (c : BitVec 16 × BitVec 8) : currencySum c ls = 0 := by
  by_cases hex : ∃ l ∈ ls, Money.unit l.amount = c
  · obtain ⟨l, hl, rfl⟩ := hex
    obtain ⟨⟨k, m⟩, hmem, hk⟩ := List.mem_map.1 ((htally.mem_keys l.currency).2 ⟨l, hl, rfl⟩)
    obtain rfl : k = l.currency := hk
    have hunit := htally.units _ _ hmem
    have hsame : ∀ l' ∈ ls, Money.unit l'.amount = Money.unit l.amount ↔ l'.currency = l.currency := by
      intro l' hl'
      constructor
      · intro hu
        rw [(hall l' hl').currency, (hall l hl).currency]
        exact currencyOf_unit hu
      · intro hc
        rw [hunit l' hl' hc, hunit l hl rfl]
    unfold currencySum
    rw [Tally.sumOf_congr hsame, ← htally.sum hmem]
    exact hzero _ _ hmem
  · exact Tally.sumOf_none (fun l hl hu => hex ⟨l, hl, hu⟩)

theorem entry_ok {date memo lines : Value} {e : Entry} (h : entry env chart date memo lines = .ok e) :
    ∃ d store items totals, date = .datetime d ∧ lines = .array store items ∧ e.date = d ∧ 2 ≤ items.length ∧
      linesFrom env chart 0 items = .ok e.lines ∧
      e.lines.foldlM (fun totals ln => bump env.cs ln.currency ln.amount totals) [] = .ok totals ∧
      checkTotals env totals = .ok () := by
  unfold entry at h
  cases date with
  | datetime d =>
    cases lines with
    | array store items =>
      dsimp only at h
      split_ifs at h with hlen
      rcases hls : linesFrom env chart 0 items with r | ls
      · rw [hls] at h
        cases h
      rw [hls] at h
      dsimp only at h
      rcases htot : ls.foldlM (fun totals ln => bump env.cs ln.currency ln.amount totals) [] with r | totals
      · rw [htot] at h
        cases h
      rw [htot] at h
      dsimp only at h
      rcases hcheck : checkTotals env totals with r | u
      · rw [hcheck] at h
        cases h
      rw [hcheck] at h
      obtain rfl := Except.ok.inj h
      exact ⟨d, store, items, totals, rfl, rfl, rfl, not_lt.1 hlen, hls, htot, hcheck⟩
    | _ => cases h
  | _ => cases h

/-- **An entry that is made balances.** -/
theorem entry_balances {date memo lines : Value} {e : Entry} (h : entry env chart date memo lines = .ok e) :
    Balances chart e.lines := by
  obtain ⟨d, store, items, totals, -, -, -, hlen, hls, htot, hcheck⟩ := entry_ok h
  obtain ⟨hcount, hall⟩ := linesFrom_ok hls
  have htally := (@Tallied.nil _ Line.currency Line.amount).run htot
  rw [List.nil_append] at htally
  refine ⟨fun hnil => ?_, fun l hl => (hall l hl).account, fun c => ?_⟩
  · rw [hnil] at hcount
    rw [← hcount] at hlen
    cases hlen
  · exact currencySum_zero hall htally (checkTotals_ok hcheck) c

/-! ## An accepted close -/

theorem entry_made {d : DateTime} {memo : Value} {store : Nat} {items : List Value} {e : Entry}
    (h : entry env chart (.datetime d) memo (.array store items) = .ok e) :
    e.date = d ∧ linesFrom env chart 0 items = .ok e.lines := by
  obtain ⟨d', store', items', totals, hd, hitems, hdate, -, hls, -⟩ := entry_ok h
  cases hd
  cases hitems
  exact ⟨hdate, hls⟩

/-- The parts of an accepted close. -/
structure Closes (env : Env) (chart : Chart) (lg : Ledger) (through : DateTime) (account : Bytes) (zero : MoneyValue)
    (bal : List (Bytes × MoneyValue)) (lines : List Value) (net : MoneyValue) (ln : Value) (e : Entry) : Prop where
  equity : ∃ acct, find account chart = some acct ∧ acct.kind = .equity
  opened : lg.closed through = false
  start : zeroOf lg = .ok zero
  balances : Accounting.balances env.cs lg (some through) = .ok bal
  closing : Accounting.closing env.cs chart zero ([], zero) (sorted bal) = .ok (lines, net)
  line : opposite env.cs zero account net = .ok ln
  made : entry env chart (.datetime through) (.string (text "Closing entry")) (.array 0 (lines ++ [ln])) = .ok e

theorem close_ok {lg' : Ledger} {through : DateTime} {equityAccount : Value}
    (h : close env chart lg through equityAccount = .ok lg') : ∃ account zero bal lines net ln e,
      equityAccount = .string account ∧ Closes env chart lg through account zero bal lines net ln e ∧
        lg' = ⟨lg.entries ++ [e], some through⟩ := by
  unfold close at h
  obtain ⟨zero, hzero, h⟩ := bind_ok.1 h
  obtain ⟨account, haccount, h⟩ := bind_ok.1 h
  have hstring : equityAccount = .string account := by
    cases equityAccount with
    | string s =>
      obtain rfl := Except.ok.inj haccount
      rfl
    | _ => cases haccount
  rcases hfind : find account chart with _ | acct
  · rw [hfind] at h
    cases h
  rw [hfind] at h
  dsimp only at h
  split_ifs at h with hkind hclosed
  obtain ⟨bal, hbal, h⟩ := bind_ok.1 h
  obtain ⟨⟨lines, net⟩, hclosing, h⟩ := bind_ok.1 h
  dsimp only at h
  split_ifs at h with hempty
  obtain ⟨ln, hline, h⟩ := bind_ok.1 h
  obtain ⟨e, hmade, h⟩ := bind_ok.1 h
  obtain rfl := Except.ok.inj h
  exact ⟨account, zero, bal, lines, net, ln, e, hstring,
    ⟨⟨acct, hfind, not_not.1 hkind⟩, eq_false_of_ne_true hclosed, hzero, hbal, raising_ok.1 hclosing,
      raising_ok.1 hline, hmade⟩, rfl⟩

/-! ## Runs -/

/-- What is done with a ledger, with the currencies known then: an entry made and posted, or a period closed. -/
inductive Op where
  | post (date memo lines : Value)
  | close (through : DateTime) (equityAccount : Value)

/-- What an operation answers. -/
def Op.apply (env : Env) (chart : Chart) (lg : Ledger) : Op → Except Refusal Ledger
  | .post date memo lines =>
    match entry env chart date memo lines with
    | .error e => .error e
    | .ok e => Accounting.post env lg e
  | .close through equityAccount => Accounting.close env chart lg through equityAccount

/-- The ledger after an operation, which a refused one leaves as it was. -/
def step (chart : Chart) (lg : Ledger) (op : Env × Op) : Ledger :=
  match op.2.apply op.1 chart lg with
  | .ok lg' => lg'
  | .error _ => lg

def run (chart : Chart) : Ledger → List (Env × Op) → Ledger := List.foldl (step chart)

/-- **What an accepted operation does**: an entry that balances is added, of a period that is not closed; and a close
closes the period of its own entry. -/
structure Adds (chart : Chart) (lg lg' : Ledger) (e : Entry) : Prop where
  entries : lg'.entries = lg.entries ++ [e]
  balances : Balances chart e.lines
  opened : lg.closed e.date = false
  through : lg'.closedThrough = lg.closedThrough ∨ lg'.closedThrough = some e.date

theorem Op.adds {lg' : Ledger} {op : Op} (h : op.apply env chart lg = .ok lg') : ∃ e, Adds chart lg lg' e := by
  cases op with
  | post date memo lines =>
    rw [Op.apply] at h
    rcases he : entry env chart date memo lines with r | e
    · rw [he] at h
      cases h
    rw [he] at h
    dsimp only at h
    unfold Accounting.post at h
    split_ifs at h with hclosed
    obtain rfl := Except.ok.inj h
    exact ⟨e, rfl, entry_balances he, eq_false_of_ne_true hclosed, .inl rfl⟩
  | close through equityAccount =>
    obtain ⟨account, zero, bal, lines, net, ln, e, -, hc, rfl⟩ := close_ok h
    have hdate : e.date = through := (entry_made hc.made).1
    refine ⟨e, rfl, entry_balances hc.made, ?_, .inr ?_⟩
    · rw [hdate]
      exact hc.opened
    · rw [hdate]

/-! ## Every ledger -/

/-- A ledger's lines, of all its entries. -/
def Ledger.lines (lg : Ledger) : List Line := lg.entries.flatMap Entry.lines

def Sound (chart : Chart) (lg : Ledger) : Prop := ∀ e ∈ lg.entries, Balances chart e.lines

theorem sound_ledger (chart : Chart) : Sound chart ledger := fun e he => by cases he

theorem sound_step (h : Sound chart lg) (op : Env × Op) : Sound chart (step chart lg op) := by
  unfold step
  rcases happly : op.2.apply op.1 chart lg with r | lg'
  · exact h
  · obtain ⟨e, he⟩ := Op.adds happly
    intro e' hmem
    dsimp only at hmem
    rw [he.entries] at hmem
    rcases List.mem_append.1 hmem with hmem | hmem
    · exact h e' hmem
    · rw [List.mem_singleton.1 hmem]
      exact he.balances

theorem sound_run {chart : Chart} : ∀ {lg : Ledger} (ops : List (Env × Op)), Sound chart lg →
    Sound chart (run chart lg ops)
  | _, [], h => h
  | _, op :: ops, h => sound_run ops (sound_step h op)

/-- **The lines come to zero** in each currency, up to a date as well. -/
theorem Sound.currencySum {chart : Chart} {lg : Ledger} (h : Sound chart lg) (p : Entry → Bool)
    (c : BitVec 16 × BitVec 8) : currencySum c ((lg.entries.filter p).flatMap Entry.lines) = 0 := by
  unfold Accounting.currencySum
  rw [Tally.sumOf_flatMap]
  refine List.sum_eq_zero (fun x hx => ?_)
  obtain ⟨e, he, rfl⟩ := List.mem_map.1 hx
  exact (h e (List.mem_of_mem_filter he)).balanced c

/-! ## What is closed stays -/

theorem atMost_iff : atMost a b = true ↔ Same.datetimeCompareExact a b ≠ .gt := decide_eq_true_iff

theorem atMost_trans {c : DateTime} (h1 : atMost a b = true) (h2 : atMost b c = true) : atMost a c = true := by
  rw [atMost_iff, Same.datetimeCompareExact_code, ne_eq, ← Ordering.isLE_iff_ne_gt] at *
  exact Std.TransCmp.isLE_trans h1 h2

theorem atMost_of_not (h : atMost a b = false) : atMost b a = true := by
  have hgt : Same.datetimeCompareExact a b = .gt := by
    by_contra hne
    rw [atMost_iff.2 hne] at h
    cases h
  rw [Same.datetimeCompareExact_code] at hgt
  rw [atMost_iff, Same.datetimeCompareExact_code, @Std.OrientedCmp.eq_swap _ compare, hgt]
  decide

theorem atMost_self (a : DateTime) : atMost a a = true := by
  rw [atMost_iff, Same.datetimeCompareExact_code, @Std.ReflCmp.compare_self _ compare]
  decide

def ClosedThrough (through : DateTime) (lg : Ledger) : Prop :=
  ∃ t, lg.closedThrough = some t ∧ atMost through t = true

def counted (lg : Ledger) (upto : Option DateTime) : List Entry := lg.entries.filter (Entry.upto upto)

theorem closed_step {through : DateTime} (h : ClosedThrough through lg) (op : Env × Op) :
    ClosedThrough through (step chart lg op) ∧
      counted (step chart lg op) (some through) = counted lg (some through) := by
  unfold step
  rcases happly : op.2.apply op.1 chart lg with r | lg'
  · exact ⟨h, rfl⟩
  · obtain ⟨t, ht, hle⟩ := h
    obtain ⟨e, he⟩ := Op.adds happly
    have hopened := he.opened
    unfold Ledger.closed at hopened
    rw [ht] at hopened
    dsimp only at hopened
    have hafter : ¬ e.upto (some through) = true := by
      intro hup
      rw [atMost_trans hup hle] at hopened
      cases hopened
    refine ⟨?_, ?_⟩
    · rcases he.through with hsame | hnew
      · exact ⟨t, hsame.trans ht, hle⟩
      · exact ⟨e.date, hnew, atMost_trans hle (atMost_of_not hopened)⟩
    · unfold counted
      dsimp only
      rw [he.entries, List.filter_append, List.filter_cons_of_neg hafter, List.filter_nil, List.append_nil]

/-- **No later operation counts up to a date that is closed.** -/
theorem closed_run {chart : Chart} {through : DateTime} : ∀ {lg : Ledger} (ops : List (Env × Op)),
    ClosedThrough through lg → counted (run chart lg ops) (some through) = counted lg (some through)
  | _, [], _ => rfl
  | lg, op :: ops, h => by
    obtain ⟨hclosed, hsame⟩ := @closed_step chart _ _ h op
    rw [← hsame]
    exact closed_run ops hclosed

theorem balances_counted (cs : Currencies) (lg : Ledger) (upto : Option DateTime) : balances cs lg upto =
    ((counted lg upto).flatMap Entry.lines).foldlM (fun out ln => bump cs ln.account ln.amount out) [] := by
  unfold balances counted
  generalize ([] : List (Bytes × MoneyValue)) = out
  induction lg.entries generalizing out with
  | nil => rfl
  | cons e es ih =>
    rw [List.foldlM_cons]
    by_cases he : e.upto upto = true
    · rw [if_pos he, List.filter_cons_of_pos he, List.flatMap_cons, List.foldlM_append]
      exact bind_congr ih
    · rw [if_neg he, List.filter_cons_of_neg he]
      exact ih out

end Accounting
end Gbasic
