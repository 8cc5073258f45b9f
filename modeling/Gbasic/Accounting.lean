import Gbasic.MoneyOps
import Gbasic.Refusal
import Gbasic.Tally
/-!
# Accounting — double-entry accounting

A chart of accounts, entries that balance in every currency, and a ledger that entries are posted to and periods of are
closed.  Amounts are debit-positive.  The writing of a value is a parameter.
-/
namespace Gbasic
namespace Accounting

open Eval (Bytes Raise MoneyValue DateTime Currencies currencyAlphaOf)
open Same (Value datetimeCompareExact stringCompare findField valueKindName)
open Tally (find put)
open Money (times add same greater sub)

/-- The currencies that are known, and `string`. -/
structure Env where
  cs : Currencies
  string : Value → Bytes

def field (fields : List (Bytes × Value)) (name : String) : Value := (findField (text name) fields).getD .unknown

def isUnknown : Value → Bool
  | .unknown => true
  | _ => false

def atMost (a b : DateTime) : Bool := decide (datetimeCompareExact a b ≠ .gt)

/-! ## The chart of accounts -/

inductive Kind where
  | asset | liability | equity | revenue | expense
  deriving DecidableEq

inductive Side where
  | debit | credit
  deriving DecidableEq

def Kind.name : Kind → String
  | .asset => "asset"
  | .liability => "liability"
  | .equity => "equity"
  | .revenue => "revenue"
  | .expense => "expense"

def normalSide : Kind → Side
  | .asset => .debit
  | .expense => .debit
  | .liability => .credit
  | .equity => .credit
  | .revenue => .credit

structure Account where
  code : Bytes
  name : Bytes
  kind : Kind
  side : Side
  normal : side = normalSide kind

abbrev Chart := List (Bytes × Account)

def keyOf : Value → Except Refusal Bytes
  | .string s => .ok s
  | v => .error (.raise ⟨text ("indexing a record expected string but got " ++ valueKindName v.kind), 1003, "indexing"⟩)

/-! ## Entries -/

structure Line where
  account : Bytes
  amount : MoneyValue
  currency : Bytes
  side : Side

structure Entry where
  date : DateTime
  memo : Value
  lines : List Line

def currencyOf (cs : Currencies) (m : MoneyValue) : Bytes :=
  (currencyAlphaOf cs m.currency).getD (text (toString m.currency.toNat))

def sided (env : Env) (place account : Bytes) (debit credit : Value) : Except Refusal Line :=
  if !isUnknown debit && !isUnknown credit then
    .error (.error (text "accounting.entry: " ++ place ++ text " has both a debit and a credit"))
  else if isUnknown debit && isUnknown credit then
    .error (.error (text "accounting.entry: " ++ place ++ text " has neither a debit nor a credit"))
  else
    match if isUnknown credit then debit else credit with
    | .money amount =>
      if isUnknown credit then .ok ⟨account, amount, currencyOf env.cs amount, .debit⟩
      else
        match times amount (-1) with
        | .error e => .error (.raise e)
        | .ok signed => .ok ⟨account, signed, currencyOf env.cs amount, .credit⟩
    | _ => .error (.error (text "accounting.entry: " ++ place ++ text " needs a money amount"))

def line (env : Env) (chart : Chart) (ln : Value) (index : Nat) : Except Refusal Line :=
  let place := text "line " ++ text (toString (index + 1))
  match ln with
  | .record fields =>
    if isUnknown (field fields "account") then
      .error (.error (text "accounting.entry: " ++ place ++ text " has no account"))
    else
      match keyOf (field fields "account") with
      | .error e => .error e
      | .ok account =>
        if (find account chart).isNone then
          .error (.error (text "accounting.entry: " ++ place ++ text " names account " ++
            env.string (field fields "account") ++ text ", which is not in the chart"))
        else sided env place account (field fields "debit") (field fields "credit")
  | _ => .error (.error (text "accounting.entry: " ++ place ++ text " must be a record"))

def linesFrom (env : Env) (chart : Chart) : Nat → List Value → Except Refusal (List Line)
  | _, [] => .ok []
  | i, ln :: lns =>
    match line env chart ln i with
    | .error e => .error e
    | .ok l =>
      match linesFrom env chart (i + 1) lns with
      | .error e => .error e
      | .ok ls => .ok (l :: ls)

def running (key : Bytes) (amount : MoneyValue) (out : List (Bytes × MoneyValue)) : Except Raise MoneyValue :=
  match find key out with
  | some running => .ok running
  | none => times amount 0

def bump (cs : Currencies) (key : Bytes) (amount : MoneyValue) (out : List (Bytes × MoneyValue)) :
    Except Refusal (List (Bytes × MoneyValue)) :=
  match running key amount out with
  | .error e => .error (.raise e)
  | .ok running =>
    match add cs running amount with
    | .error e => .error (.raise e)
    | .ok sum => .ok (put key sum out)

def checkTotals (env : Env) : List (Bytes × MoneyValue) → Except Refusal Unit
  | [] => .ok ()
  | (code, total) :: totals =>
    match times total 0 with
    | .error e => .error (.raise e)
    | .ok zero =>
      if same total zero = false then
        .error (.error (text "accounting.entry does not balance in " ++ code ++ text ": debits minus credits is " ++
          env.string (.money total)))
      else checkTotals env totals

def entry (env : Env) (chart : Chart) (date memo lines : Value) : Except Refusal Entry :=
  match date with
  | .datetime date =>
    match lines with
    | .array _ items =>
      if items.length < 2 then .error (.error (text "accounting.entry expects at least two lines"))
      else
        match linesFrom env chart 0 items with
        | .error e => .error e
        | .ok normalised =>
          match normalised.foldlM (fun totals ln => bump env.cs ln.currency ln.amount totals) [] with
          | .error e => .error e
          | .ok totals =>
            match checkTotals env totals with
            | .error e => .error e
            | .ok () => .ok ⟨date, memo, normalised⟩
    | _ => .error (.error (text "accounting.entry expects at least two lines"))
  | _ => .error (.error (text "accounting.entry expects a date"))

/-! ## The ledger -/

structure Ledger where
  entries : List Entry
  closedThrough : Option DateTime

def ledger : Ledger := ⟨[], none⟩

def Ledger.closed (lg : Ledger) (date : DateTime) : Bool :=
  match lg.closedThrough with
  | some through => atMost date through
  | none => false

def Ledger.closedText (env : Env) (lg : Ledger) : Bytes :=
  match lg.closedThrough with
  | some through => env.string (.datetime through)
  | none => []

def post (env : Env) (lg : Ledger) (e : Entry) : Except Refusal Ledger :=
  if lg.closed e.date then
    .error (.error (text "accounting.post: the period through " ++ lg.closedText env ++
      text " is closed; an entry dated " ++ env.string (.datetime e.date) ++ text " cannot be added"))
  else .ok ⟨lg.entries ++ [e], lg.closedThrough⟩

/-! ## Reporting -/

def zeroOf (lg : Ledger) : Except Refusal MoneyValue :=
  match lg.entries with
  | ⟨_, _, ln :: _⟩ :: _ => raising (times ln.amount 0)
  | ⟨_, _, []⟩ :: _ => .error (.raise ⟨text "array index out of range", 1003, "indexing"⟩)
  | [] => .error (.error (text "accounting: an empty ledger has nothing to report"))

def Entry.upto (limit : Option DateTime) (e : Entry) : Bool :=
  match limit with
  | some limit => atMost e.date limit
  | none => true

def balances (cs : Currencies) (lg : Ledger) (upto : Option DateTime) : Except Refusal (List (Bytes × MoneyValue)) :=
  lg.entries.foldlM (fun out e =>
    if e.upto upto then e.lines.foldlM (fun out ln => bump cs ln.account ln.amount out) out else .ok out) []

def sorted {α : Type} (bal : List (Bytes × α)) : List (Bytes × α) :=
  bal.mergeSort (fun a b => stringCompare a.1 b.1 ≠ .gt)

structure Row where
  account : Bytes
  debit : MoneyValue
  credit : MoneyValue

structure TrialBalance where
  rows : List Row
  debits : MoneyValue
  credits : MoneyValue
  balanced : Bool

/-- The loop of `trial_balance`. -/
def trialRows (cs : Currencies) (zero : MoneyValue) :
    List Row × MoneyValue × MoneyValue → List (Bytes × MoneyValue) → Except Raise (List Row × MoneyValue × MoneyValue)
  | st, [] => .ok st
  | (rows, totalD, totalC), (code, amount) :: bal =>
    match greater cs amount zero, Money.less cs amount zero with
    | .error e, _ => .error e
    | .ok above, less =>
      match if above then add cs totalD amount else .ok totalD with
      | .error e => .error e
      | .ok totalD =>
        match less with
        | .error e => .error e
        | .ok false => trialRows cs zero (rows ++ [⟨code, if above then amount else zero, zero⟩], totalD, totalC) bal
        | .ok true =>
          match times amount (-1) with
          | .error e => .error e
          | .ok c =>
            match add cs totalC c with
            | .error e => .error e
            | .ok totalC =>
              trialRows cs zero (rows ++ [⟨code, if above then amount else zero, c⟩], totalD, totalC) bal

def trialBalance (cs : Currencies) (lg : Ledger) : Except Refusal TrialBalance :=
  match zeroOf lg with
  | .error e => .error e
  | .ok zero =>
    match balances cs lg none with
    | .error e => .error e
    | .ok bal =>
      (raising (trialRows cs zero ([], zero, zero) (sorted bal))).map (fun (rows, debits, credits) =>
        ⟨rows, debits, credits, same debits credits⟩)

def kindTotal (cs : Currencies) (chart : Chart) (kind : Kind) :
    MoneyValue → List (Bytes × MoneyValue) → Except Raise MoneyValue
  | total, [] => .ok total
  | total, (code, amount) :: bal =>
    match find code chart with
    | none => kindTotal cs chart kind total bal
    | some acct =>
      if acct.kind = kind then
        match if acct.side = .debit then add cs total amount else sub cs total amount with
        | .error e => .error e
        | .ok total => kindTotal cs chart kind total bal
      else kindTotal cs chart kind total bal

structure BalanceSheet where
  assets : MoneyValue
  liabilities : MoneyValue
  equity : MoneyValue
  earnings : MoneyValue
  balanced : Bool

def sheetOf (cs : Currencies) (chart : Chart) (zero : MoneyValue) (bal : List (Bytes × MoneyValue)) :
    Except Raise BalanceSheet := do
  let assets ← kindTotal cs chart .asset zero bal
  let liabilities ← kindTotal cs chart .liability zero bal
  let equity ← kindTotal cs chart .equity zero bal
  let revenue ← kindTotal cs chart .revenue zero bal
  let expenses ← kindTotal cs chart .expense zero bal
  let earnings ← sub cs revenue expenses
  let owed ← add cs liabilities equity
  let sum ← add cs owed earnings
  return ⟨assets, liabilities, equity, earnings, same assets sum⟩

def balanceSheet (cs : Currencies) (chart : Chart) (lg : Ledger) (asOf : Option DateTime) :
    Except Refusal BalanceSheet :=
  match zeroOf lg with
  | .error e => .error e
  | .ok zero =>
    match balances cs lg asOf with
    | .error e => .error e
    | .ok bal => raising (sheetOf cs chart zero bal)

/-! ## Closing -/

def given (account : Bytes) (side : Side) (amount : MoneyValue) : Value :=
  .record [(text "account", .string account),
    (match side with | .debit => text "debit" | .credit => text "credit", .money amount)]

def cleared (chart : Chart) (code : Bytes) : Bool :=
  match find code chart with
  | some acct => acct.kind = .revenue || acct.kind = .expense
  | none => false

def opposite (cs : Currencies) (zero : MoneyValue) (account : Bytes) (amount : MoneyValue) : Except Raise Value :=
  match greater cs amount zero with
  | .error e => .error e
  | .ok true => .ok (given account .credit amount)
  | .ok false => (times amount (-1)).map (given account .debit)

/-- The loop of `close`: the lines that clear the balances, and their net. -/
def closing (cs : Currencies) (chart : Chart) (zero : MoneyValue) :
    List Value × MoneyValue → List (Bytes × MoneyValue) → Except Raise (List Value × MoneyValue)
  | st, [] => .ok st
  | (lines, net), (code, amount) :: bal =>
    if cleared chart code && !same amount zero then
      match opposite cs zero code amount with
      | .error e => .error e
      | .ok ln =>
        match sub cs net amount with
        | .error e => .error e
        | .ok net => closing cs chart zero (lines ++ [ln], net) bal
    else closing cs chart zero (lines, net) bal

def close (env : Env) (chart : Chart) (lg : Ledger) (through : DateTime) (equityAccount : Value) :
    Except Refusal Ledger := do
  let zero ← zeroOf lg
  let account ← keyOf equityAccount
  match find account chart with
  | none => .error (.error (text "accounting.close: " ++ env.string equityAccount ++ text " is not in the chart"))
  | some acct =>
    if acct.kind ≠ .equity then
      .error (.error (text "accounting.close: " ++ env.string equityAccount ++ text " is of kind " ++
        text acct.kind.name ++ text ", not equity"))
    else if lg.closed through then
      .error (.error (text "accounting.close: the period through " ++ lg.closedText env ++ text " is already closed"))
    else do
      let bal ← balances env.cs lg (some through)
      let (lines, net) ← raising (closing env.cs chart zero ([], zero) (sorted bal))
      if lines.isEmpty then .error (.error (text "accounting.close: nothing to close in that period"))
      else do
        let ln ← raising (opposite env.cs zero account net)
        let e ← entry env chart (.datetime through) (.string (text "Closing entry")) (.array 0 (lines ++ [ln]))
        return ⟨lg.entries ++ [e], some through⟩

end Accounting
end Gbasic
