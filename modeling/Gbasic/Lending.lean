import Gbasic.MoneyOps
import Gbasic.Refusal
/-!
# Lending — loans, servicing and payoff

A loan declares its conventions, and what it owes is a fold over the events of its life.  Numbers are the language's,
whose arithmetic is a parameter, and so are the day counts and the writing of a value.
-/
namespace Gbasic
namespace Lending

open Eval (Bytes Raise MoneyValue DateTime Currencies)
open Same (datetimeCompareExact)

/-- A value that a loan or an event may be given. -/
inductive Field (ν : Type) where
  | unknown
  | number (x : ν)
  | string (s : Bytes)
  | money (m : MoneyValue)
  | datetime (d : DateTime)
  | other (kind : Same.Kind)

structure Arithmetic (ν : Type) where
  ofInt : Int → ν
  less : ν → ν → Bool
  atMost : ν → ν → Bool
  same : ν → ν → Bool
  sub : ν → ν → ν
  mul : ν → ν → ν
  div : ν → ν → Except Raise ν
  floor : ν → ν
  /-- Money by a number. -/
  scale : MoneyValue → ν → Except Raise MoneyValue

/-- What is known and what is used: the currencies, `string`, what an operator says of a value of another kind, the
numbers, and of the libraries that are loaded `finance.year_fraction`, `dates.days_between` and a day later. -/
structure Env (ν : Type) where
  cs : Currencies
  string : Field ν → Bytes
  mistyped : Field ν → Refusal
  arith : Arithmetic ν
  yearFraction : DateTime → DateTime → Field ν → Except Refusal ν
  daysBetween : DateTime → DateTime → Int
  oneDayAfter : DateTime → Except Refusal DateTime

def before (a b : DateTime) : Bool := decide (datetimeCompareExact a b = .lt)

variable {ν : Type}

/-! ## The loan record -/

inductive Basis where
  | amortized | dailySimple
  deriving DecidableEq

inductive Waterfall where
  | feesInterestPrincipal | interestPrincipalFees
  deriving DecidableEq

structure Loan (ν : Type) where
  principal : MoneyValue
  rate : Field ν
  term : ν
  opened : DateTime
  basis : Basis
  waterfall : Waterfall
  dayCount : Field ν
  periodsPerYear : Field ν

def knownBasis (env : Env ν) : Field ν → Except Refusal (Option Basis)
  | .string s =>
    .ok (if s = text "amortized" then some .amortized else if s = text "daily_simple" then some .dailySimple else none)
  | .money m => .error (env.mistyped (.money m))
  | .datetime d => .error (env.mistyped (.datetime d))
  | _ => .ok none

def knownWaterfall (env : Env ν) : Field ν → Except Refusal (Option Waterfall)
  | .string s =>
    .ok (if s = text "fees_interest_principal" then some .feesInterestPrincipal
      else if s = text "interest_principal_fees" then some .interestPrincipalFees else none)
  | .money m => .error (env.mistyped (.money m))
  | .datetime d => .error (env.mistyped (.datetime d))
  | _ => .ok none

def isUnknown : Field ν → Bool
  | .unknown => true
  | _ => false

def probeA : DateTime := ⟨2026, 1, 1, 0, 0, 0, 0, 3⟩

def probeB : DateTime := ⟨2026, 2, 1, 0, 0, 0, 0, 3⟩

def missing (spec : String → Field ν) : Option String :=
  ["principal", "rate", "term", "opened", "basis", "waterfall", "day_count"].find? (fun f => isUnknown (spec f))

/-- `loan`, of a record's fields. -/
def loan (env : Env ν) (spec : String → Field ν) : Except Refusal (Loan ν) :=
  match missing spec with
  | some f => .error (.error (text ("lending.loan needs a " ++ f)))
  | none =>
    match spec "principal" with
    | .money principal =>
      match spec "rate" with
      | .number rate =>
        if env.arith.less rate (env.arith.ofInt 0) then
          .error (.error (text "lending.loan expects an annual rate as a number, 0 or more"))
        else
          match spec "term" with
          | .number term =>
            if env.arith.atMost term (env.arith.ofInt 0) || !env.arith.same term (env.arith.floor term) then
              .error (.error (text "lending.loan expects a whole number of periods"))
            else
              match spec "opened" with
              | .datetime opened => do
                match ← knownBasis env (spec "basis") with
                | none =>
                  .error (.error (text ("lending.loan: basis must be \"amortized\" or \"daily_simple\"" ++
                    " -- they are different loans and neither is the default")))
                | some basis =>
                  match ← knownWaterfall env (spec "waterfall") with
                  | none =>
                    .error (.error (text ("lending.loan: waterfall must be \"fees_interest_principal\"" ++
                      " or \"interest_principal_fees\"")))
                  | some waterfall =>
                    let _ ← env.yearFraction probeA probeB (spec "day_count")
                    let periods := if isUnknown (spec "periods_per_year") then .number (env.arith.ofInt 12)
                      else spec "periods_per_year"
                    return ⟨principal, .number rate, term, opened, basis, waterfall, spec "day_count", periods⟩
              | _ => .error (.error (text "lending.loan expects an opening date"))
          | _ => .error (.error (text "lending.loan expects a whole number of periods"))
      | _ => .error (.error (text "lending.loan expects an annual rate as a number, 0 or more"))
    | _ => .error (.error (text "lending.loan expects the principal as money"))

/-! ## Of the finance library -/

def checkRate (env : Env ν) (who : String) : Field ν → Except Refusal ν
  | .number r =>
    if env.arith.atMost r (env.arith.ofInt (-1)) then .error (.error (text (who ++ " needs a period rate above -100%")))
    else .ok r
  | _ => .error (.error (text (who ++ " expects the period rate as a number (0.05 is 5%)")))

def checkPeriods (env : Env ν) (who : String) : Field ν → Except Refusal ν
  | .number n =>
    if env.arith.atMost n (env.arith.ofInt 0) || !env.arith.same n (env.arith.floor n) then
      .error (.error (text (who ++ " expects a whole number of periods, 1 or more")))
    else .ok n
  | _ => .error (.error (text (who ++ " expects a whole number of periods, 1 or more")))

def periodic (env : Env ν) (nominalAnnual periodsPerYear : Field ν) : Except Refusal ν := do
  let rate ← checkRate env "finance.periodic" nominalAnnual
  let periods ← checkPeriods env "finance.periodic" periodsPerYear
  raising (env.arith.div rate periods)

def financeAccrue (env : Env ν) (balance : MoneyValue) (annualRate : Field ν) (start finish : DateTime)
    (convention : Field ν) : Except Refusal MoneyValue := do
  let rate ← checkRate env "finance.accrue" annualRate
  let fraction ← env.yearFraction start finish convention
  if env.arith.less fraction (env.arith.ofInt 0) then
    .error (.error (text "finance.accrue: the period ends before it starts"))
  else raising (env.arith.scale balance (env.arith.mul rate fraction))

/-! ## Interest -/

def asNumber (env : Env ν) : Field ν → Except Refusal ν
  | .number x => .ok x
  | v => .error (env.mistyped v)

def periodsAt (env : Env ν) (l : Loan ν) (d : DateTime) : Except Refusal ν :=
  if env.daysBetween l.opened d ≤ 0 then .ok (env.arith.ofInt 0)
  else do
    let periods ← asNumber env l.periodsPerYear
    let length ← raising (env.arith.div (env.arith.ofInt 365) periods)
    let whole ← raising (env.arith.div (env.arith.ofInt (env.daysBetween l.opened d)) length)
    return env.arith.floor whole

def zeroOf (l : Loan ν) : Except Refusal MoneyValue := raising (Money.times l.principal 0)

def accrue (env : Env ν) (l : Loan ν) (balance : MoneyValue) (fromD toD : DateTime) : Except Refusal MoneyValue := do
  let zero ← zeroOf l
  let owed ← raising (Money.greater env.cs balance zero)
  if owed = false then return zero
  else
    match l.basis with
    | .dailySimple => financeAccrue env balance l.rate fromD toD l.dayCount
    | .amortized => do
      let upto ← periodsAt env l toD
      let since ← periodsAt env l fromD
      if env.arith.atMost (env.arith.sub upto since) (env.arith.ofInt 0) then return zero
      else do
        let rate ← periodic env l.rate l.periodsPerYear
        raising (env.arith.scale balance (env.arith.mul rate (env.arith.sub upto since)))

/-! ## Servicing -/

structure State where
  balance : MoneyValue
  accrued : MoneyValue
  feesDue : MoneyValue
  paidPrincipal : MoneyValue
  paidInterest : MoneyValue
  paidFees : MoneyValue

/-- What a due takes of what is left, and what is left then; `_min_money` and the subtraction. -/
def takeFrom (cs : Currencies) (left due : MoneyValue) : Except Raise (MoneyValue × MoneyValue) := do
  let less ← Money.less cs left due
  let take := if less then left else due
  let left ← Money.sub cs left take
  return (take, left)

def takes (cs : Currencies) (left first second third : MoneyValue) :
    Except Raise (MoneyValue × MoneyValue × MoneyValue × MoneyValue) := do
  let (a, left) ← takeFrom cs left first
  let (b, left) ← takeFrom cs left second
  let (c, left) ← takeFrom cs left third
  return (a, b, c, left)

def State.paid (cs : Currencies) (st : State) (principal interest fees : MoneyValue) : Except Raise State := do
  let balance ← Money.sub cs st.balance principal
  let accrued ← Money.sub cs st.accrued interest
  let feesDue ← Money.sub cs st.feesDue fees
  let paidPrincipal ← Money.add cs st.paidPrincipal principal
  let paidInterest ← Money.add cs st.paidInterest interest
  let paidFees ← Money.add cs st.paidFees fees
  return ⟨balance, accrued, feesDue, paidPrincipal, paidInterest, paidFees⟩

def applyPayment (env : Env ν) (l : Loan ν) (st : State) (amount : MoneyValue) : Except Refusal State := do
  let (fees, interest, principal, left) ←
    match l.waterfall with
    | .feesInterestPrincipal => raising (takes env.cs amount st.feesDue st.accrued st.balance)
    | .interestPrincipalFees =>
      (raising (takes env.cs amount st.accrued st.balance st.feesDue)).map (fun (i, p, f, left) => (f, i, p, left))
  let zero ← zeroOf l
  let exceeds ← raising (Money.greater env.cs left zero)
  if exceeds then
    .error (.error (text "lending.apply: payment exceeds what is owed by " ++ env.string (.money left) ++
      text " -- an overpayment is a refund, not a negative balance"))
  else raising (st.paid env.cs principal interest fees)

structure Event (ν : Type) where
  date : Field ν
  kind : Field ν
  amount : Field ν

structure Row (ν : Type) where
  date : DateTime
  kind : Field ν
  balance : MoneyValue
  accrued : MoneyValue
  feesDue : MoneyValue

/-- What the fold carries: what is owed, the date it has come to, the loan at its rate now, and the history. -/
structure Folded (ν : Type) where
  st : State
  date : DateTime
  working : Loan ν
  history : List (Row ν)

def moneyOf (env : Env ν) : Field ν → Except Refusal MoneyValue
  | .money m => .ok m
  | v => .error (env.mistyped v)

def act (env : Env ν) (l working : Loan ν) (st : State) (date : DateTime) (e : Event ν) :
    Except Refusal (State × Loan ν) :=
  match e.kind with
  | .string k =>
    if k = text "payment" then do
      let amount ← moneyOf env e.amount
      return (← applyPayment env working st amount, working)
    else if k = text "fee" then do
      let amount ← moneyOf env e.amount
      let fees ← raising (Money.add env.cs st.feesDue amount)
      return ({ st with feesDue := fees }, working)
    else if k = text "rate_change" then
      if before date l.opened then .error (.error (text "lending.apply: a rate change cannot predate the loan"))
      else .ok (st, { working with rate := e.amount })
    else
      .error (.error (text "lending.apply: unknown event kind " ++ env.string e.kind ++
        text " -- use payment, fee or rate_change"))
  | .money m => .error (env.mistyped (.money m))
  | .datetime d => .error (env.mistyped (.datetime d))
  | _ =>
    .error (.error (text "lending.apply: unknown event kind " ++ env.string e.kind ++
      text " -- use payment, fee or rate_change"))

def applyEvent (env : Env ν) (l : Loan ν) (wantHistory : Bool) (i : Nat) (s : Folded ν) (e : Event ν) :
    Except Refusal (Folded ν) :=
  match e.date with
  | .datetime date =>
    if before date s.date then
      .error (.error (text "lending.apply: event " ++ text (toString (i + 1)) ++
        text " is dated before the previous one; events must be in order"))
    else do
      let interest ← accrue env s.working s.st.balance s.date date
      let accrued ← raising (Money.add env.cs s.st.accrued interest)
      let (st, working) ← act env l s.working { s.st with accrued := accrued } date e
      let history := if wantHistory then s.history ++ [⟨date, e.kind, st.balance, st.accrued, st.feesDue⟩]
        else s.history
      return ⟨st, date, working, history⟩
  | _ => .error (.error (text "lending.apply: event " ++ text (toString (i + 1)) ++ text " needs a date"))

def applyFrom (env : Env ν) (l : Loan ν) (wantHistory : Bool) : Nat → Folded ν → List (Event ν) →
    Except Refusal (Folded ν)
  | _, s, [] => .ok s
  | i, s, e :: es =>
    match applyEvent env l wantHistory i s e with
    | .error r => .error r
    | .ok s => applyFrom env l wantHistory (i + 1) s es

def opening (l : Loan ν) : Except Refusal (Folded ν) := do
  let zero ← zeroOf l
  return ⟨⟨l.principal, zero, zero, zero, zero, zero⟩, l.opened, l, []⟩

/-- `apply`: the state, the date it has accrued to and the rate are those of what is folded. -/
def apply (env : Env ν) (l : Loan ν) (events : List (Event ν)) (wantHistory : Bool) : Except Refusal (Folded ν) := do
  applyFrom env l wantHistory 0 (← opening l) events

structure Payoff where
  principal : MoneyValue
  interest : MoneyValue
  fees : MoneyValue
  total : MoneyValue
  perDiem : MoneyValue

def payoff (env : Env ν) (l : Loan ν) (events : List (Event ν)) (asOf : DateTime) : Except Refusal Payoff := do
  let s ← apply env l events false
  if before asOf s.date then .error (.error (text "lending.payoff: the date is before the last event"))
  else do
    let extra ← accrue env l s.st.balance s.date asOf
    let interest ← raising (Money.add env.cs s.st.accrued extra)
    let owed ← raising (Money.add env.cs s.st.balance s.st.accrued)
    let owed ← raising (Money.add env.cs owed extra)
    let total ← raising (Money.add env.cs owed s.st.feesDue)
    let next ← env.oneDayAfter asOf
    let perDiem ← accrue env l s.st.balance asOf next
    return ⟨s.st.balance, interest, s.st.feesDue, total, perDiem⟩

end Lending
end Gbasic
