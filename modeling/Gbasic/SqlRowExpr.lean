import Gbasic.SqlWrite
import Gbasic.TableCodec
/-!
# SqlRowExpr — the expressions that read one row

A CHECK and a serial's scope are kept as text, and planned against their table each time they are used.  A name is
looked for among the table's columns as the table is then: a dotted one names the table before it names a column's
field.  What is planned reads the columns it names and nothing else of the row (`RowTerm.eval_congr`), each as the host
loads it, where an absence is one however it was bound.
-/
namespace Gbasic
namespace Gsql

open Engine (Bytes)
open Key (SER_NULL SER_UNKNOWN SER_BOOL SER_NUMBER SER_STRING SER_ARRAY SER_RECORD SER_DATETIME SER_DURATION SER_MONEY
  keyAppend)

/-- An expression over a row, its names as they are written: an operator or a function answers what it makes of its
arguments' answers. -/
inductive RowText where
  | const (v : Except Error Bytes)
  | name (first : Bytes) (more : List Bytes)
  | op (f : List (Except Error Bytes) → Except Error Bytes) (args : List RowText)

inductive RowTerm where
  | const (v : Except Error Bytes)
  | col (i : Nat) (fields : List Bytes)
  | op (f : List (Except Error Bytes) → Except Error Bytes) (args : List RowTerm)

/-- What a row's expressions ask of the parser and of the host: a text parsed, and a record's field read. -/
structure RowHost where
  parse : Bytes → Except Error RowText
  field : Bytes → List Bytes → Except Error Bytes

/-! ## Names bound -/

def boundColumn (tb : Table) (i : Nat) : List Bytes → Except Error RowTerm
  | [] => .ok (.col i [])
  | f :: fields =>
    if (tb.col i).kind = .record then .ok (.col i (f :: fields))
    else
      .error (fail .type (text "column " ++ (tb.col i).name ++ text " is " ++ text (kindName (tb.col i).kind) ++
        text ", so it has no field `" ++ f ++ text "`: only a RECORD column has fields"))

def bindBare (tb : Table) (first : Bytes) (fields : List Bytes) : Except Error RowTerm :=
  match tb.find first with
  | some i => boundColumn tb i fields
  | none => .error (fail .notFound (text "table " ++ tb.name ++ text " has no column `" ++ first ++ text "`"))

/-- `bind_name`, where the query reads one table: what stands before a dot is the table if it is called so. -/
def bindName (tb : Table) (first : Bytes) : List Bytes → Except Error RowTerm
  | [] => bindBare tb first []
  | second :: fields =>
    if first = tb.name then bindBare tb second fields else bindBare tb first (second :: fields)

mutual

def RowText.bind (tb : Table) : RowText → Except Error RowTerm
  | .const v => .ok (.const v)
  | .name first more => bindName tb first more
  | .op f args =>
    match bindAll tb args with
    | .error e => .error e
    | .ok ts => .ok (.op f ts)

def bindAll (tb : Table) : List RowText → Except Error (List RowTerm)
  | [] => .ok []
  | e :: es =>
    match e.bind tb with
    | .error err => .error err
    | .ok t =>
      match bindAll tb es with
      | .error err => .error err
      | .ok ts => .ok (t :: ts)

end

/-- `row_plan`: a text parsed, and its names bound to the table's columns. -/
def RowHost.plan (r : RowHost) (tb : Table) (s : Bytes) : Except Error RowTerm :=
  match r.parse s with
  | .error e => .error e
  | .ok e => e.bind tb

/-! ## What is planned, evaluated -/

mutual

/-- What a row makes of an expression; a column's value is loaded, an absence bound as `nothing` being unknown. -/
def RowTerm.eval (r : RowHost) (v : Vals) : RowTerm → Except Error Bytes
  | .const x => x
  | .col i [] => .ok (stored (v.getD i []))
  | .col i (f :: fields) => r.field (stored (v.getD i [])) (f :: fields)
  | .op f args => f (evalTerms r v args)

def evalTerms (r : RowHost) (v : Vals) : List RowTerm → List (Except Error Bytes)
  | [] => []
  | t :: ts => t.eval r v :: evalTerms r v ts

end

mutual

/-- `reads_column`. -/
def RowTerm.reads (c : Nat) : RowTerm → Bool
  | .const _ => false
  | .col i _ => decide (i = c)
  | .op _ args => readsAny c args

def readsAny (c : Nat) : List RowTerm → Bool
  | [] => false
  | t :: ts => t.reads c || readsAny c ts

end

/-! ## A serial's scope -/

def tagWord (tag : Nat) : String :=
  if tag = SER_NULL ∨ tag = SER_UNKNOWN then "NULL"
  else if tag = SER_BOOL then "a boolean"
  else if tag = SER_NUMBER then "a number"
  else if tag = SER_STRING then "text"
  else if tag = SER_ARRAY then "an array"
  else if tag = SER_RECORD then "a record"
  else if tag = SER_DATETIME then "a date-time"
  else if tag = SER_DURATION then "a duration"
  else if tag = SER_MONEY then "money"
  else "a value G-SQL does not store"

def scopeKeyFrom : Bytes → List (Except Error Bytes) → Except Error Bytes
  | k, [] => .ok k
  | k, x :: xs =>
    match x with
    | .error e => .error e
    | .ok b =>
      match keyAppend k b ⟨false, false⟩ with
      | (.ok, k, _) => scopeKeyFrom k xs
      | _ =>
        .error (fail .expression (text (tagWord (b.headD 0).val) ++
          text " has no order G-SQL can key, so it cannot be a scope"))

/-- `scope_plan`, what a scope reads of itself apart. -/
def RowHost.scopePlan (r : RowHost) (tb : Table) (c : Nat) : Except Error (List RowTerm) :=
  match (tb.col c).scope.mapM (r.plan tb) with
  | .error e =>
    .error (fail .schema (text "serial `" ++ tb.name ++ text "." ++ (tb.col c).name ++
      text "`'s scope cannot be applied: " ++ e.message.take 399))
  | .ok ts => .ok ts

def RowHost.scopeOf (r : RowHost) (tb : Table) (c : Nat) (v : Vals) : Except Error Bytes :=
  match r.scopePlan tb c with
  | .error e => .error e
  | .ok ts =>
    match scopeKeyFrom [] (evalTerms r v ts) with
    | .ok k => .ok k
    | .error e =>
      .error { e with message := (text "serial `" ++ tb.name.take 80 ++ text "." ++ (tb.col c).name.take 80 ++
        text "`'s scope: " ++ e.message.take 300).take 511 }

/-- A host whose scopes are the tables' own. -/
def RowHost.scoped (r : RowHost) (h : Host) : Host := { h with scope := r.scopeOf }

/-! ## A row's expressions read the columns they name -/

theorem stored_stored (x : Bytes) : stored (stored x) = stored x := by
  unfold stored
  split_ifs with h h'
  · rfl
  · rfl
  · rfl

mutual

/-- **Rows that agree where an expression reads them answer it alike.** -/
theorem RowTerm.eval_congr {r : RowHost} {v w : Vals} : ∀ {t : RowTerm},
    (∀ i, t.reads i = true → stored (v.getD i []) = stored (w.getD i [])) → t.eval r v = t.eval r w
  | .const _, _ => rfl
  | .col i [], h => by
    have hi : stored (v.getD i []) = stored (w.getD i []) := h i (by simp [RowTerm.reads])
    rw [RowTerm.eval, RowTerm.eval, hi]
  | .col i (f :: fields), h => by
    have hi : stored (v.getD i []) = stored (w.getD i []) := h i (by simp [RowTerm.reads])
    rw [RowTerm.eval, RowTerm.eval, hi]
  | .op f args, h => by
    rw [RowTerm.eval, RowTerm.eval, evalTerms_congr (fun i hi => h i (by rw [RowTerm.reads]; exact hi))]

theorem evalTerms_congr {r : RowHost} {v w : Vals} : ∀ {ts : List RowTerm},
    (∀ i, readsAny i ts = true → stored (v.getD i []) = stored (w.getD i [])) → evalTerms r v ts = evalTerms r w ts
  | [], _ => rfl
  | t :: ts, h => by
    have ht : ∀ i, t.reads i = true → stored (v.getD i []) = stored (w.getD i []) :=
      fun i hi => h i (by simp [readsAny, hi])
    have hts : ∀ i, readsAny i ts = true → stored (v.getD i []) = stored (w.getD i []) :=
      fun i hi => h i (by simp [readsAny, hi])
    rw [evalTerms, evalTerms, RowTerm.eval_congr ht, evalTerms_congr hts]

end

theorem evalTerms_stored (r : RowHost) (v : Vals) (ts : List RowTerm) :
    evalTerms r (v.map stored) ts = evalTerms r v ts := by
  refine evalTerms_congr (fun i _ => ?_)
  rw [getD_stored, stored_stored]

end Gsql
end Gbasic
