import Gbasic.TableCatalog
import Gbasic.KeySkip
/-!
# SqlExpr — the expressions of VALUES

The planner goes over the expressions of an INSERT's VALUES before any is evaluated.  The rows are written one at a
time, so it refuses whatever would read a table there: a name, a subquery, an aggregate or a window.  What is left
answers alike on every database (`SqlExpr.eval_bound`).
-/
namespace Gbasic
namespace Gsql

open Engine (Bytes)

structure HostValue where
  bytes : Bytes
  letters : Key.Readable ⟨false, false⟩ bytes

abbrev Expr := Db → Except Error HostValue
abbrev RowExpr := Db → Vals → Except Error HostValue

def checkAll {α : Type} (f : α → Except Error Unit) : List α → Except Error Unit
  | [] => .ok ()
  | a :: as =>
    match f a with
    | .error e => .error e
    | .ok () => checkAll f as

/-- `SqlExpr`: a literal or a parameter is what the host loads of it; an operator and a function answer what they make
of their arguments' answers, which they may leave unread. -/
inductive SqlExpr where
  | const (v : Except Error HostValue)
  | name (part : Bytes)
  | subquery (q : Expr)
  | call (name : Bytes) (windowed distinct : Bool) (f : List (Except Error HostValue) → Except Error HostValue)
      (args : List SqlExpr)
  | op (f : List (Except Error HostValue) → Except Error HostValue) (args : List SqlExpr)

def functions : List (Bytes × Nat × Nat) :=
  [(text "coalesce", 1, 64), (text "nullif", 2, 2), (text "lower", 1, 1), (text "upper", 1, 1), (text "length", 1, 1),
    (text "char_length", 1, 1), (text "abs", 1, 1), (text "round", 1, 2), (text "trim", 1, 1), (text "mod", 2, 2),
    (text "substring", 2, 3), (text "extract", 2, 2)]

def aggregates : List Bytes := [text "count", text "sum", text "avg", text "min", text "max"]

def bindCall (name : Bytes) (windowed distinct : Bool) (n : Nat) : Except Error Unit :=
  if windowed then .error (fail .syntaxError (text "VALUES cannot use a window function"))
  else if name = text "grouping" then
    .error (fail .syntaxError (text "VALUES cannot use GROUPING: it reads a row's group, as an aggregate does"))
  else if name = text "stddev" ∨ name = text "variance" then
    .error (fail .unsupported (name ++ text " is not in this release of G-SQL; count, sum, avg, min and max are"))
  else if name ∈ aggregates then .error (fail .syntaxError (text "VALUES cannot use an aggregate"))
  else if distinct then
    .error (fail .syntaxError (text "only an aggregate takes DISTINCT, and " ++ name ++ text " is not one"))
  else
    match functions.find? (fun f => f.1 = name) with
    | none =>
      .error (fail .notFound (text "`" ++ name ++ text ("` is not a G-SQL function: the functions are coalesce, " ++
        "nullif, lower, upper, length, char_length, abs, round, trim, mod, substring and extract")))
    | some (_, lo, hi) =>
      if lo ≤ n ∧ n ≤ hi then .ok ()
      else
        .error (fail .syntaxError (name ++ text " takes " ++
          (if lo = hi then number lo ++ text " argument" ++ text (if lo = 1 then "" else "s")
          else number lo ++ text " to " ++ number hi ++ text " arguments") ++
          text ", and was given " ++ number n))

mutual

def SqlExpr.bind : SqlExpr → Except Error Unit
  | .const _ => .ok ()
  | .name part =>
    .error (fail .syntaxError (text "VALUES cannot read a column, and `" ++ part ++ text "` names one"))
  | .subquery _ =>
    .error (fail .unsupported (text ("INSERT ... VALUES cannot hold a subquery in this release of G-SQL: its rows " ++
      "are written one at a time, so a subquery reading the table would see the rows written before it")))
  | .call name windowed distinct _ args =>
    match bindCall name windowed distinct args.length with
    | .error e => .error e
    | .ok () => bindArgs args
  | .op _ args => bindArgs args

def bindArgs : List SqlExpr → Except Error Unit
  | [] => .ok ()
  | e :: es =>
    match e.bind with
    | .error err => .error err
    | .ok () => bindArgs es

end

mutual

def SqlExpr.eval (db : Db) : SqlExpr → Except Error HostValue
  | .const v => v
  | .name _ => .error (fail .misuse (text "an unbound name reached the executor"))
  | .subquery q => q db
  | .call _ _ _ f args => f (evalArgs db args)
  | .op f args => f (evalArgs db args)

def evalArgs (db : Db) : List SqlExpr → List (Except Error HostValue)
  | [] => []
  | e :: es => e.eval db :: evalArgs db es

end

/-- The rows of VALUES, each as long as the first; none is `DEFAULT`. -/
structure ValuesRows where
  rowlen : Nat
  rows : List (List (Option SqlExpr))
  even : ∀ row ∈ rows, row.length = rowlen

def bindItem : Option SqlExpr → Except Error Unit
  | none => .ok ()
  | some e => e.bind

def itemsOf (row : List (Option SqlExpr)) : List (Option Expr) := row.map (fun i => i.map (fun e db => e.eval db))

/-! ## What is planned reads no table -/

mutual

/-- **An expression of VALUES that is planned answers alike on every database.** -/
theorem SqlExpr.eval_bound (db db' : Db) : ∀ {e : SqlExpr}, e.bind = .ok () → e.eval db = e.eval db'
  | .const _, _ => rfl
  | .call name windowed distinct f args, h => by
    rw [SqlExpr.bind] at h
    split at h
    · cases h
    · rw [SqlExpr.eval, SqlExpr.eval, evalArgs_bound db db' h]
  | .op f args, h => by
    rw [SqlExpr.bind] at h
    rw [SqlExpr.eval, SqlExpr.eval, evalArgs_bound db db' h]

theorem evalArgs_bound (db db' : Db) : ∀ {es : List SqlExpr}, bindArgs es = .ok () → evalArgs db es = evalArgs db' es
  | [], _ => rfl
  | e :: es, h => by
    rw [bindArgs] at h
    split at h
    · cases h
    · rename_i he
      rw [evalArgs, evalArgs, SqlExpr.eval_bound db db' he, evalArgs_bound db db' h]

end

theorem checkAll_ok {α : Type} {f : α → Except Error Unit} : ∀ {as : List α}, checkAll f as = .ok () →
    ∀ a ∈ as, f a = .ok ()
  | [], _, a, ha => by cases ha
  | b :: bs, h, a, ha => by
    rw [checkAll] at h
    split at h
    · cases h
    · rename_i hb
      rcases List.mem_cons.1 ha with rfl | ha
      · exact hb
      · exact checkAll_ok h a ha

end Gsql
end Gbasic
