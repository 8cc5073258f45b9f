import Gbasic.Lending
import Gbasic.Waterfall
/-!
# LendingApply — what servicing conserves

Interest is never negative, a payment takes from each due no more than it is, and so what is owed and what is paid go
together in every state that events lead to.
-/
namespace Gbasic
namespace Lending

open Eval (Bytes Raise MoneyValue DateTime Currencies)
open Money (InLong amount amount_of unit_of sub_of sub_ok add_ok add_of)
open Gbasic.Waterfall (pour pour_sum pour_within pour_left)

variable {ν : Type}
variable {st st' : State} {paid : Int} {e : Event ν} {x m : MoneyValue} {working : Loan ν} {s : Folded ν}

/-- What is relied on of numbers: products and quotients keep their sign, and money scaled keeps its own. -/
structure Arithmetic.Sane (a : Arithmetic ν) : Prop where
  above : ∀ x, a.atMost x (a.ofInt 0) = false → a.less x (a.ofInt 0) = false
  mul : ∀ x y, a.less x (a.ofInt 0) = false → a.less y (a.ofInt 0) = false → a.less (a.mul x y) (a.ofInt 0) = false
  div : ∀ x y z, a.less x (a.ofInt 0) = false → a.atMost y (a.ofInt 0) = false → a.div x y = .ok z →
    a.less z (a.ofInt 0) = false
  scale : ∀ m x r, 0 ≤ amount m → a.less x (a.ofInt 0) = false → a.scale m x = .ok r →
    Money.unit r = Money.unit m ∧ 0 ≤ amount r

def RateOk (env : Env ν) (rate : Field ν) : Prop := ∀ x, rate = .number x → env.arith.less x (env.arith.ofInt 0) = false

section
variable {env : Env ν} {l : Loan ν} {c : BitVec 16 × BitVec 8}

theorem zeroOf_ok (l : Loan ν) : zeroOf l = .ok (Money.of (Money.unit l.principal) 0) := by
  unfold zeroOf
  rw [Money.times_zero]
  rfl

theorem checkRate_ok {who : String} {rate : Field ν} {x : ν} (h : checkRate env who rate = .ok x) :
    rate = .number x := by
  unfold checkRate at h
  cases rate with
  | number r =>
    dsimp only at h
    split_ifs at h
    rw [Except.ok.inj h]
  | _ => cases h

theorem checkPeriods_ok {who : String} {n : Field ν} {x : ν} (h : checkPeriods env who n = .ok x) :
    env.arith.atMost x (env.arith.ofInt 0) = false := by
  unfold checkPeriods at h
  cases n with
  | number r =>
    dsimp only at h
    split_ifs at h with hbad
    rw [← Except.ok.inj h]
    rw [Bool.or_eq_true, not_or] at hbad
    exact eq_false_of_ne_true hbad.1
  | _ => cases h

/-- **Interest is of the loan's currency, and not negative.** -/
theorem accrue_ok (hsane : env.arith.Sane) (hrate : RateOk env l.rate) (hl : Money.unit l.principal = c)
    {balance : MoneyValue} {fromD toD : DateTime} (h : accrue env l balance fromD toD = .ok m) :
    Money.unit m = c ∧ 0 ≤ amount m := by
  have hzero : Money.unit (Money.of c 0) = c ∧ 0 ≤ amount (Money.of c 0) :=
    ⟨rfl, (amount_of (by decide)).ge⟩
  unfold accrue at h
  obtain ⟨zero, hz, h⟩ := bind_ok.1 h
  rw [zeroOf_ok, hl] at hz
  obtain rfl := Except.ok.inj hz
  obtain ⟨owed, howed, h⟩ := bind_ok.1 h
  obtain ⟨hunit, hdec⟩ := Money.greater_ok.1 (raising_ok.1 howed)
  rw [unit_of] at hunit
  split_ifs at h with hnone
  · obtain rfl := Except.ok.inj h
    exact hzero
  · have hpos : 0 ≤ amount balance := by
      rw [Bool.not_eq_false] at hnone
      rw [hnone, eq_comm, decide_eq_true_eq, amount_of (by decide)] at hdec
      exact hdec.le
    rcases hb : l.basis with _ | _
    · rw [hb] at h
      obtain ⟨upto, -, h⟩ := bind_ok.1 h
      obtain ⟨since, -, h⟩ := bind_ok.1 h
      split_ifs at h with helapsed
      · obtain rfl := Except.ok.inj h
        exact hzero
      · obtain ⟨rate, hper, h⟩ := bind_ok.1 h
        unfold periodic at hper
        obtain ⟨r, hr, hper⟩ := bind_ok.1 hper
        obtain ⟨n, hn, hper⟩ := bind_ok.1 hper
        have hrate0 := hsane.div r n rate (hrate r (checkRate_ok hr)) (checkPeriods_ok hn) (raising_ok.1 hper)
        have helapsed0 := hsane.above _ (eq_false_of_ne_true helapsed)
        rw [← hunit]
        exact hsane.scale _ _ _ hpos (hsane.mul _ _ hrate0 helapsed0) (raising_ok.1 h)
    · rw [hb] at h
      unfold financeAccrue at h
      obtain ⟨r, hr, h⟩ := bind_ok.1 h
      obtain ⟨fraction, -, h⟩ := bind_ok.1 h
      split_ifs at h with hneg
      rw [← hunit]
      exact hsane.scale _ _ _ hpos (hsane.mul _ _ (hrate r (checkRate_ok hr)) (eq_false_of_ne_true hneg))
        (raising_ok.1 h)

/-! ## A payment -/

structure State.In (st : State) (c : BitVec 16 × BitVec 8) : Prop where
  balance : Money.unit st.balance = c
  accrued : Money.unit st.accrued = c
  feesDue : Money.unit st.feesDue = c
  paidPrincipal : Money.unit st.paidPrincipal = c
  paidInterest : Money.unit st.paidInterest = c
  paidFees : Money.unit st.paidFees = c

theorem takeFrom_ok (cs : Currencies) {left due : MoneyValue} (hleft : Money.unit left = c) (hdue : Money.unit due = c)
    (hpos : 0 ≤ amount due) : ∃ t r, takeFrom cs left due = .ok (t, r) ∧ Money.unit t = c ∧ Money.unit r = c ∧
      amount t = min (amount left) (amount due) ∧
      amount r = amount left - amount t := by
  have hin := Money.amount_inLong left
  obtain ⟨t, ht, hu, ha⟩ : ∃ t, (if decide (amount left < amount due) then left else due) = t ∧
      Money.unit t = c ∧ amount t = min (amount left) (amount due) := by
    by_cases hless : amount left < amount due
    · exact ⟨left, if_pos (decide_eq_true hless), hleft, (min_eq_left hless.le).symm⟩
    · exact ⟨due, if_neg (by simpa using hless), hdue, (min_eq_right (not_lt.1 hless)).symm⟩
  have hlong : InLong (amount left - amount t) := by
    unfold InLong at hin ⊢
    omega
  refine ⟨t, _, ?_, hu, unit_of _, ha, amount_of hlong⟩
  apply bind_ok.2 ⟨_, Money.less_same (hleft.trans hdue.symm), _⟩
  rw [ht]
  exact bind_ok.2 ⟨_, sub_of hleft hu hlong, rfl⟩

theorem takes_ok (cs : Currencies) {d₁ d₂ d₃ : MoneyValue} (hx : Money.unit x = c) (h₁ : Money.unit d₁ = c)
    (h₂ : Money.unit d₂ = c) (h₃ : Money.unit d₃ = c) (hpos₁ : 0 ≤ amount d₁) (hpos₂ : 0 ≤ amount d₂)
    (hpos₃ : 0 ≤ amount d₃) : ∃ t₁ t₂ t₃ r, takes cs x d₁ d₂ d₃ = .ok (t₁, t₂, t₃, r) ∧
      Money.unit t₁ = c ∧ Money.unit t₂ = c ∧ Money.unit t₃ = c ∧ Money.unit r = c ∧
      pour (amount x) [amount d₁, amount d₂, amount d₃] =
        ([amount t₁, amount t₂, amount t₃], amount r) := by
  obtain ⟨t₁, r₁, e₁, u₁, v₁, a₁, b₁⟩ := takeFrom_ok cs hx h₁ hpos₁
  obtain ⟨t₂, r₂, e₂, u₂, v₂, a₂, b₂⟩ := takeFrom_ok cs v₁ h₂ hpos₂
  obtain ⟨t₃, r₃, e₃, u₃, v₃, a₃, b₃⟩ := takeFrom_ok cs v₂ h₃ hpos₃
  refine ⟨t₁, t₂, t₃, r₃, ?_, u₁, u₂, u₃, v₃, ?_⟩
  · apply bind_ok.2 ⟨_, e₁, _⟩
    apply bind_ok.2 ⟨_, e₂, _⟩
    exact bind_ok.2 ⟨_, e₃, rfl⟩
  · rw [Waterfall.pour_cons, ← a₁, ← b₁, Waterfall.pour_cons, ← a₂, ← b₂, Waterfall.pour_cons, ← a₃, ← b₃]
    rfl

structure State.Nonneg (st : State) : Prop where
  balance : 0 ≤ amount st.balance
  accrued : 0 ≤ amount st.accrued
  feesDue : 0 ≤ amount st.feesDue

def State.owed (st : State) : Int := amount st.balance + amount st.accrued + amount st.feesDue

/-- How a payment goes to what is due, whatever the order. -/
structure Split (st : State) (x f i p left : Int) : Prop where
  whole : f + i + p + left = x
  fees : 0 ≤ f ∧ f ≤ amount st.feesDue
  interest : 0 ≤ i ∧ i ≤ amount st.accrued
  principal : 0 ≤ p ∧ p ≤ amount st.balance
  left : left = max 0 (x - st.owed)

theorem pour_three {x d₁ d₂ d₃ t₁ t₂ t₃ r : Int} (hx : 0 ≤ x) (h₁ : 0 ≤ d₁) (h₂ : 0 ≤ d₂) (h₃ : 0 ≤ d₃)
    (h : pour x [d₁, d₂, d₃] = ([t₁, t₂, t₃], r)) :
    t₁ + t₂ + t₃ + r = x ∧ (0 ≤ t₁ ∧ t₁ ≤ d₁) ∧ (0 ≤ t₂ ∧ t₂ ≤ d₂) ∧ (0 ≤ t₃ ∧ t₃ ≤ d₃) ∧
      r = max 0 (x - (d₁ + d₂ + d₃)) := by
  have hdues : ∀ d ∈ [d₁, d₂, d₃], 0 ≤ d := by
    simpa using ⟨h₁, h₂, h₃⟩
  have hsum := pour_sum x [d₁, d₂, d₃]
  have hleft := pour_left hx hdues
  obtain ⟨hwithin, -⟩ := pour_within hx hdues
  rw [h] at hsum hleft hwithin
  simp only [List.sum_cons, List.sum_nil, List.forall₂_cons] at hsum hleft hwithin
  obtain ⟨w₁, w₂, w₃, -⟩ := hwithin
  refine ⟨?_, w₁, w₂, w₃, ?_⟩
  · omega
  · omega

theorem over_ok {α : Type} (hl : Money.unit l.principal = c) {left : MoneyValue} (hu : Money.unit left = c)
    (x y : Except Refusal α) : (do
      let exceeds ← raising (Money.greater env.cs left (Money.of (Money.unit l.principal) 0))
      if exceeds then x else y) = if 0 < amount left then x else y := by
  rw [hl, Money.greater_same (hu.trans (unit_of 0).symm), amount_of (by decide)]
  exact if_congr decide_eq_true_iff rfl rfl

theorem applyPayment_ok (env : Env ν) (hl : Money.unit l.principal = c) (hin : st.In c) (hst : st.Nonneg)
    (hx : Money.unit x = c) (hpos : 0 ≤ amount x) : ∃ f i p left : MoneyValue,
      Money.unit f = c ∧ Money.unit i = c ∧ Money.unit p = c ∧
      Split st (amount x) (amount f) (amount i) (amount p) (amount left) ∧
      applyPayment env l st x =
        if 0 < amount left then
          .error (.error (text "lending.apply: payment exceeds what is owed by " ++ env.string (.money left) ++
            text " -- an overpayment is a refund, not a negative balance"))
        else raising (st.paid env.cs p i f) := by
  unfold applyPayment
  rw [zeroOf_ok]
  rcases l.waterfall with _ | _
  · obtain ⟨f, i, p, left, htakes, uf, ui, up, ur, hpour⟩ := takes_ok env.cs hx hin.feesDue hin.accrued hin.balance
      hst.feesDue hst.accrued hst.balance
    obtain ⟨whole, wf, wi, wp, wr⟩ := pour_three hpos hst.feesDue hst.accrued hst.balance hpour
    refine ⟨f, i, p, left, uf, ui, up, ⟨whole, wf, wi, wp, ?_⟩, ?_⟩
    · unfold State.owed
      rw [wr]
      congr 1
      ring
    · dsimp only
      rw [htakes]
      exact over_ok hl ur _ _
  · obtain ⟨i, p, f, left, htakes, ui, up, uf, ur, hpour⟩ := takes_ok env.cs hx hin.accrued hin.balance hin.feesDue
      hst.accrued hst.balance hst.feesDue
    obtain ⟨whole, wi, wp, wf, wr⟩ := pour_three hpos hst.accrued hst.balance hst.feesDue hpour
    refine ⟨f, i, p, left, uf, ui, up, ⟨?_, wf, wi, wp, ?_⟩, ?_⟩
    · omega
    · unfold State.owed
      rw [wr]
      congr 1
      ring
    · dsimp only
      rw [htakes]
      exact over_ok hl ur _ _

theorem paid_ok {cs : Currencies} (hin : st.In c) {p i f : MoneyValue} (h : st.paid cs p i f = .ok st') : st'.In c ∧
      amount st'.balance = amount st.balance - amount p ∧
      amount st'.accrued = amount st.accrued - amount i ∧
      amount st'.feesDue = amount st.feesDue - amount f ∧
      amount st'.paidPrincipal = amount st.paidPrincipal + amount p ∧
      amount st'.paidInterest = amount st.paidInterest + amount i ∧
      amount st'.paidFees = amount st.paidFees + amount f := by
  unfold State.paid at h
  obtain ⟨b, hb, h⟩ := bind_ok.1 h
  obtain ⟨a, ha, h⟩ := bind_ok.1 h
  obtain ⟨d, hd, h⟩ := bind_ok.1 h
  obtain ⟨pp, hpp, h⟩ := bind_ok.1 h
  obtain ⟨pi, hpi, h⟩ := bind_ok.1 h
  obtain ⟨pf, hpf, h⟩ := bind_ok.1 h
  obtain rfl := Except.ok.inj h
  obtain ⟨-, -, ub, ab⟩ := sub_ok.1 hb
  obtain ⟨-, -, ua, aa⟩ := sub_ok.1 ha
  obtain ⟨-, -, ud, ad⟩ := sub_ok.1 hd
  obtain ⟨-, -, upp, app⟩ := add_ok.1 hpp
  obtain ⟨-, -, upi, api⟩ := add_ok.1 hpi
  obtain ⟨-, -, upf, apf⟩ := add_ok.1 hpf
  exact ⟨⟨ub.trans hin.balance, ua.trans hin.accrued, ud.trans hin.feesDue, upp.trans hin.paidPrincipal,
    upi.trans hin.paidInterest, upf.trans hin.paidFees⟩, ab, aa, ad, app, api, apf⟩

theorem paid_of (cs : Currencies) (hin : st.In c) {p i f : MoneyValue} (hp : Money.unit p = c) (hi : Money.unit i = c)
    (hf : Money.unit f = c) (hb : InLong (amount st.balance - amount p)) (ha : InLong (amount st.accrued - amount i))
    (hd : InLong (amount st.feesDue - amount f)) (hpp : InLong (amount st.paidPrincipal + amount p))
    (hpi : InLong (amount st.paidInterest + amount i)) (hpf : InLong (amount st.paidFees + amount f)) :
    ∃ st', st.paid cs p i f = .ok st' := by
  have hpaid : st.paid cs p i f = .ok ⟨_, _, _, _, _, _⟩ :=
    bind_ok.2 ⟨_, sub_of hin.balance hp hb, bind_ok.2 ⟨_, sub_of hin.accrued hi ha,
      bind_ok.2 ⟨_, sub_of hin.feesDue hf hd, bind_ok.2 ⟨_, add_of hin.paidPrincipal hp hpp,
        bind_ok.2 ⟨_, add_of hin.paidInterest hi hpi, bind_ok.2 ⟨_, add_of hin.paidFees hf hpf, rfl⟩⟩⟩⟩⟩⟩
  exact ⟨_, hpaid⟩

/-! ## The invariant -/

def Event.payment (e : Event ν) : Int :=
  match e.kind, e.amount with
  | .string k, .money m => if k = text "payment" then Money.amount m else 0
  | _, _ => 0

def payments (events : List (Event ν)) : Int := (events.map Event.payment).sum

/-- An event's amount is not negative. -/
def Event.Nonneg (a : Arithmetic ν) (e : Event ν) : Prop :=
  (∀ m, e.amount = .money m → 0 ≤ Money.amount m) ∧ ∀ x, e.amount = .number x → a.less x (a.ofInt 0) = false

structure Conserved (l : Loan ν) (paid : Int) (st : State) : Prop where
  unit : st.In (Money.unit l.principal)
  balance : amount st.balance = amount l.principal - amount st.paidPrincipal
  nonneg : st.Nonneg
  paid : paid = amount st.paidPrincipal + amount st.paidInterest + amount st.paidFees

theorem applyPayment_unit (hin : st.In c) (h : applyPayment env l st x = .ok st') : Money.unit x = c := by
  have hfirst : ∀ {due : MoneyValue} {y}, takeFrom env.cs x due = .ok y → Money.unit x = Money.unit due := by
    intro due y hy
    obtain ⟨less, hless, -⟩ := bind_ok.1 hy
    exact (Money.less_ok.1 hless).1
  unfold applyPayment at h
  rcases hw : l.waterfall with _ | _ <;> rw [hw] at h <;> dsimp only at h
  · obtain ⟨taken, htaken, -⟩ := bind_ok.1 h
    obtain ⟨y, hy, -⟩ := bind_ok.1 (raising_ok.1 htaken)
    exact (hfirst hy).trans hin.feesDue
  · obtain ⟨taken, htaken, -⟩ := bind_ok.1 h
    rcases htakes : takes env.cs x st.accrued st.balance st.feesDue with r | t
    · rw [htakes] at htaken
      cases htaken
    · obtain ⟨y, hy, -⟩ := bind_ok.1 htakes
      exact (hfirst hy).trans hin.accrued

/-- **A payment keeps it**, and counts. -/
theorem Conserved.pay (h : Conserved l paid st) (hw : Money.unit working.principal = Money.unit l.principal)
    (hx : 0 ≤ amount x) (hpaid : applyPayment env working st x = .ok st') : Conserved l (paid + amount x) st' := by
  obtain ⟨f, i, p, left, -, -, -, ⟨whole, wf, wi, wp, wl⟩, heq⟩ :=
    applyPayment_ok env hw h.unit h.nonneg (applyPayment_unit h.unit hpaid) hx
  rw [heq] at hpaid
  split_ifs at hpaid with hleft
  obtain ⟨hin, hb, ha, hd, hpp, hpi, hpf⟩ := paid_ok h.unit (raising_ok.1 hpaid)
  have hbalance := h.balance
  have hsum := h.paid
  refine ⟨hin, ?_, ⟨?_, ?_, ?_⟩, ?_⟩ <;> omega

theorem Conserved.charge (h : Conserved l paid st) {accrued feesDue : MoneyValue}
    (ha : Money.unit accrued = Money.unit l.principal) (hd : Money.unit feesDue = Money.unit l.principal)
    (hapos : 0 ≤ amount accrued) (hdpos : 0 ≤ amount feesDue) :
    Conserved l paid { st with accrued := accrued, feesDue := feesDue } :=
  ⟨⟨h.unit.balance, ha, hd, h.unit.paidPrincipal, h.unit.paidInterest, h.unit.paidFees⟩, h.balance,
    ⟨h.nonneg.balance, hapos, hdpos⟩, h.paid⟩

structure Carried (a : Arithmetic ν) (l : Loan ν) (working : Loan ν) : Prop where
  rest : working = { l with rate := working.rate }
  rate : ∀ x, working.rate = .number x → a.less x (a.ofInt 0) = false

theorem Carried.unit {a : Arithmetic ν} (h : Carried a l working) :
    Money.unit working.principal = Money.unit l.principal := by
  rw [h.rest]

theorem moneyOf_ok {v : Field ν} (h : moneyOf env v = .ok m) : v = .money m := by
  unfold moneyOf at h
  cases v with
  | money x => rw [Except.ok.inj h]
  | _ => cases h

theorem payment_of (hk : e.kind = .string (text "payment")) (ha : e.amount = .money m) : e.payment = amount m := by
  unfold Event.payment
  rw [hk, ha]
  exact if_pos rfl

theorem payment_else {k : Bytes} (hk : e.kind = .string k) (hne : k ≠ text "payment") : e.payment = 0 :=
    by
  unfold Event.payment
  rw [hk]
  cases e.amount with
  | money m => exact if_neg hne
  | _ => rfl

/-- **An event keeps it**, once interest has accrued. -/
theorem act_ok {working' : Loan ν} {date : DateTime} (he : e.Nonneg env.arith) (hst : Conserved l paid st)
    (hw : Carried env.arith l working) (h : act env l working st date e = .ok (st', working')) :
    Conserved l (paid + e.payment) st' ∧ Carried env.arith l working' := by
  unfold act at h
  rcases hk : e.kind with _ | _ | k | _ | _ | _ <;> rw [hk] at h <;> dsimp only at h
  case string =>
    split_ifs at h with hpay hfee hrate hbefore
    · obtain ⟨x, hx, h⟩ := bind_ok.1 h
      obtain ⟨st₁, hpaid, h⟩ := bind_ok.1 h
      obtain ⟨rfl, rfl⟩ := Prod.mk.inj (Except.ok.inj h)
      rw [hpay] at hk
      rw [payment_of hk (moneyOf_ok hx)]
      exact ⟨hst.pay hw.unit (he.1 x (moneyOf_ok hx)) hpaid, hw⟩
    · obtain ⟨x, hx, h⟩ := bind_ok.1 h
      obtain ⟨fees, hfees, h⟩ := bind_ok.1 h
      obtain ⟨rfl, rfl⟩ := Prod.mk.inj (Except.ok.inj h)
      obtain ⟨-, -, hu, ha⟩ := add_ok.1 (raising_ok.1 hfees)
      have hpos := he.1 x (moneyOf_ok hx)
      have hdue := hst.nonneg.feesDue
      rw [payment_else hk hpay, add_zero]
      refine ⟨hst.charge hst.unit.accrued (hu.trans hst.unit.feesDue) hst.nonneg.accrued ?_, hw⟩
      omega
    · obtain ⟨rfl, rfl⟩ := Prod.mk.inj (Except.ok.inj h)
      rw [payment_else hk hpay, add_zero]
      refine ⟨hst, ?_, he.2⟩
      rw [hw.rest]
  all_goals cases h

/-- The invariant of the fold. -/
structure Folded.Kept (a : Arithmetic ν) (l : Loan ν) (paid : Int) (s : Folded ν) : Prop where
  st : Conserved l paid s.st
  working : Carried a l s.working

theorem Folded.Kept.charged (h : s.Kept env.arith l paid) (hsane : env.arith.Sane) {d : DateTime}
    {owed accrued : MoneyValue} (howed : accrue env s.working s.st.balance s.date d = .ok owed)
    (hadd : Money.add env.cs s.st.accrued owed = .ok accrued) : Conserved l paid { s.st with accrued := accrued } := by
  obtain ⟨hu, hpos⟩ := accrue_ok hsane h.working.rate h.working.unit howed
  obtain ⟨-, -, hu', ha⟩ := add_ok.1 hadd
  have hdue := h.st.nonneg.accrued
  exact h.st.charge (hu'.trans h.st.unit.accrued) h.st.unit.feesDue (by omega) h.st.nonneg.feesDue

theorem applyEvent_inv {w : Bool} {i : Nat} {s' : Folded ν} (h : applyEvent env l w i s e = .ok s') :
    e.date = .datetime s'.date ∧ before s'.date s.date = false ∧ ∃ interest accrued,
      accrue env s.working s.st.balance s.date s'.date = .ok interest ∧
      Money.add env.cs s.st.accrued interest = .ok accrued ∧
      act env l s.working { s.st with accrued := accrued } s'.date e = .ok (s'.st, s'.working) := by
  unfold applyEvent at h
  rcases hdate : e.date with _ | _ | _ | _ | date | _ <;> rw [hdate] at h <;> dsimp only at h
  case datetime =>
    by_cases hbefore : before date s.date = true
    · rw [if_pos hbefore] at h
      cases h
    · rw [if_neg hbefore] at h
      obtain ⟨interest, hinterest, h⟩ := bind_ok.1 h
      obtain ⟨accrued, haccrued, h⟩ := bind_ok.1 h
      obtain ⟨⟨st, working⟩, hact, h⟩ := bind_ok.1 h
      obtain rfl := Except.ok.inj h
      exact ⟨rfl, eq_false_of_ne_true hbefore, interest, accrued, hinterest, raising_ok.1 haccrued, hact⟩
  all_goals cases h

/-- **One turn of the loop keeps it.** -/
theorem applyEvent_ok (hsane : env.arith.Sane) {w : Bool} {i : Nat} {s' : Folded ν} (he : e.Nonneg env.arith)
    (hs : s.Kept env.arith l paid) (h : applyEvent env l w i s e = .ok s') :
    s'.Kept env.arith l (paid + e.payment) := by
  obtain ⟨-, -, interest, accrued, hinterest, haccrued, hact⟩ := applyEvent_inv h
  obtain ⟨hst', hw'⟩ := act_ok he (hs.charged hsane hinterest haccrued) hs.working hact
  exact ⟨hst', hw'⟩

/-- **Every run keeps it.** -/
theorem applyFrom_ok (hsane : env.arith.Sane) {w : Bool} : ∀ {events : List (Event ν)} {i : Nat} {s s' : Folded ν}
    {paid : Int},
    (∀ e ∈ events, e.Nonneg env.arith) → s.Kept env.arith l paid → applyFrom env l w i s events = .ok s' →
      s'.Kept env.arith l (paid + payments events)
  | [], i, s, s', paid, _, hs, h => by
    obtain rfl := Except.ok.inj h
    rw [payments, List.map_nil, List.sum_nil, add_zero]
    exact hs
  | e :: es, i, s, s', paid, he, hs, h => by
    unfold applyFrom at h
    rcases hevent : applyEvent env l w i s e with r | s₁ <;> rw [hevent] at h <;> dsimp only at h
    · cases h
    · have hs₁ := applyEvent_ok hsane (he e (List.mem_cons_self ..)) hs hevent
      have hrest := applyFrom_ok hsane (fun e' he' => he e' (List.mem_cons_of_mem _ he')) hs₁ h
      rw [payments, List.map_cons, List.sum_cons, ← add_assoc]
      exact hrest

theorem applyFrom_append {w : Bool} : ∀ (xs ys : List (Event ν)) (i : Nat) (s : Folded ν),
    applyFrom env l w i s (xs ++ ys) = match applyFrom env l w i s xs with
      | .error r => .error r
      | .ok s' => applyFrom env l w (i + xs.length) s' ys
  | [], ys, i, s => rfl
  | e :: es, ys, i, s => by
    rw [List.cons_append, applyFrom, applyFrom]
    rcases applyEvent env l w i s e with r | s₁
    · rfl
    · dsimp only
      have hlen : i + (es.length + 1) = i + 1 + es.length := by omega
      rw [applyFrom_append es ys, List.length_cons, hlen]

end

end Lending
end Gbasic
