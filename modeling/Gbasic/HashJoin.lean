import Gbasic.KeyRound
import Gbasic.OpenHash
/-!
# HashJoin — a join's inner side read whole, or by a hash

An inner scan that would be read whole, with a condition `col = e` where `e` reads only the scans before it, is hashed
on `col`: its rows are chained by their column's key, and each opening reads the chain of the key that `e` has
(`hashBuild`, `hashProbe`).  Either way every condition is checked on every row that is offered, and an outer row of a
LEFT join that nothing matched comes once with NULLs (`level`).  A condition's other expressions, and the conversions of
a comparison, are the host's; the inner rows are held, and read back without failure.
-/
namespace Gbasic
namespace HashJoin

open Key (Value serialize keyAppend SER_NULL SER_UNKNOWN SER_BOOL SER_NUMBER SER_STRING SER_ARRAY SER_RECORD
  SER_DATETIME SER_DURATION SER_MONEY SER_FILE SER_DIR SER_ACTOR SER_FUNCTION SER_REGEX)

abbrev Bytes := List Byte

/-! ## Values -/

def keylessTag : Same.Kind → Option Nat
  | .duration => some SER_DURATION
  | .array => some SER_ARRAY
  | .record => some SER_RECORD
  | .file => some SER_FILE
  | .dir => some SER_DIR
  | .handle .actor => some SER_ACTOR
  | .function => some SER_FUNCTION
  | .regex => some SER_REGEX
  | _ => none

structure Keyless where
  said : Same.Value
  tag : Nat
  body : Bytes
  kind : keylessTag said.kind = some tag

inductive Datum where
  | keyed (v : Value)
  | keyless (k : Keyless)

def Datum.bytes : Datum → Bytes
  | .keyed v => serialize v
  | .keyless k => byte k.tag :: k.body

/-- `gsql_h_load`: SQL's NULL is unknown, whether it was bound as nothing or not. -/
def Datum.said : Datum → Same.Value
  | .keyed .null => .unknown
  | .keyed v => v.said
  | .keyless k => k.said

/-- `gsql_h_kind`. -/
def hostKind : Same.Value → Nat
  | .null => SER_NULL
  | .unknown => SER_UNKNOWN
  | .bool _ => SER_BOOL
  | .number _ => SER_NUMBER
  | .string _ => SER_STRING
  | .array .. => SER_ARRAY
  | .record _ => SER_RECORD
  | .datetime _ => SER_DATETIME
  | .duration _ => SER_DURATION
  | .money _ => SER_MONEY
  | .file _ => SER_FILE
  | .dir _ => SER_DIR
  | _ => 0

def Datum.kind (d : Datum) : Nat := hostKind d.said

def Datum.isNull (d : Datum) : Bool := decide (d.kind = SER_UNKNOWN ∨ d.kind = SER_NULL)

inductive Errno where
  | expression | type | misuse | storage
  deriving DecidableEq

/-! ## Comparing -/

/-- What the host converts: text read as the kind of another value, and a number as money of a currency. -/
structure Host where
  text : Bytes → Datum → Option Value
  money : Key.Num → Key.Money → Option Value

def readsAs : Datum → Bool
  | .keyed (.number _) => true
  | .keyed (.money m) => decide (m.alpha ≠ [])
  | .keyed (.datetime _) => true
  | _ => false

/-- One side of a comparison read as the other's kind, if it is read so: nothing where it is left as it is. -/
def alignSide (h : Host) (a other : Datum) : Option (Except Errno Datum) :=
  match a with
  | .keyed (.string t) =>
    if readsAs other then
      some (match h.text t.bytes other with
        | some v => .ok (.keyed v)
        | none => .error .expression)
    else none
  | .keyed (.number n) =>
    match other with
    | .keyed (.money m) =>
      if readsAs other then
        some (match h.money n m with
          | some v => .ok (.keyed v)
          | none => .error .expression)
      else none
    | _ => none
  | _ => none

def converts (a other : Datum) : Bool :=
  decide (a.kind = SER_STRING) || decide (a.kind = SER_NUMBER ∧ other.kind = SER_MONEY)

def alignKinds (h : Host) (a b : Datum) : Except Errno (Datum × Datum) :=
  if a.kind = b.kind ∨ a.isNull ∨ b.isNull then .ok (a, b)
  else if converts a b then
    match alignSide h a b with
    | none => .ok (a, b)
    | some (.error e) => .error e
    | some (.ok a) => .ok (a, b)
  else if converts b a then
    match alignSide h b a with
    | none => .ok (a, b)
    | some (.error e) => .error e
    | some (.ok b) => .ok (a, b)
  else .ok (a, b)

def comparable (a b : Datum) : Bool := a.isNull || b.isNull || decide (a.kind = b.kind)

inductive Truth where
  | yes | no | unknown | notBoolean
  deriving DecidableEq

/-- `eval_bin` of `=`, of two values. -/
def equals (h : Host) (a b : Datum) : Except Errno Truth :=
  match alignKinds h a b with
  | .error e => .error e
  | .ok (a, b) =>
    if comparable a b then
      match Same.evalEquals a.said b.said with
      | .unknown => .ok .unknown
      | .bool true => .ok .yes
      | .bool false => .ok .no
      | .raised _ => .error .expression
    else .error .expression

/-! ## Conditions -/

abbrev Inner := Nat → Datum

variable {Ω : Type}

/-- A side of `=`: a column of this scan, an expression that reads only the scans before it, or any other. -/
inductive Operand (Ω : Type) where
  | col (i : Nat)
  | before (f : Ω → Except Errno Datum)
  | other (f : Ω → Option Inner → Except Errno Datum)

def Operand.eval (ω : Ω) (row : Option Inner) : Operand Ω → Except Errno Datum
  | .col i =>
    match row with
    | some r => .ok (r i)
    | none => .ok (.keyed .unknown)
  | .before f => f ω
  | .other f => f ω row

inductive Cond (Ω : Type) where
  | eq (a b : Operand Ω)
  | other (f : Ω → Option Inner → Except Errno Truth)

def Cond.truth (h : Host) (ω : Ω) (row : Option Inner) : Cond Ω → Except Errno Truth
  | .eq a b =>
    match a.eval ω row with
    | .error e => .error e
    | .ok x =>
      match b.eval ω row with
      | .error e => .error e
      | .ok y => equals h x y
  | .other f => f ω row

def check (h : Host) (ω : Ω) (row : Option Inner) : List (Cond Ω) → Except Errno Bool
  | [] => .ok true
  | c :: cs =>
    match c.truth h ω row with
    | .error e => .error e
    | .ok .notBoolean => .error .expression
    | .ok .yes => check h ω row cs
    | .ok _ => .ok false

/-- `choose_hash`, of a scan that is not the first, is not forced and would be read whole: the column and the probe. -/
def chooseHash : List (Cond Ω) → Option (Nat × (Ω → Except Errno Datum))
  | [] => none
  | .eq (.col i) (.before f) :: _ => some (i, f)
  | .eq (.before f) (.col i) :: _ => some (i, f)
  | _ :: cs => chooseHash cs

/-! ## The hash -/

def keyHash (b : Bytes) : Nat := b.foldl (fun h x => (h ^^^ x.val) * 1099511628211 % 2 ^ 64) 1469598103934665603

/-- `hkeys`, `hfirst`, `hlast` by group, `hnext` by row, and `hmap`; rows and groups are numbered from one. -/
structure Table where
  keys : List Bytes
  first : List Nat
  last : List Nat
  next : List Nat
  map : OpenHash.Map

def Table.keyOf (keys : List Bytes) (s : Nat) : Bytes := (keys[s - 1]?).getD []

def groupKey (d : Datum) : Option Bytes :=
  if (d.bytes.headD 0).val = SER_UNKNOWN ∨ (d.bytes.headD 0).val = SER_NULL then none
  else
    match keyAppend [] d.bytes ⟨false, false⟩ with
    | (.ok, key, _) => some key
    | _ => none

def hashRow (t : Table) (i : Nat) (d : Datum) : Table :=
  match groupKey d with
  | none => t
  | some key =>
    -- the next group's key is put in place first, so the map may read it
    let (map, g) := OpenHash.find keyHash (Table.keyOf (t.keys ++ [key])) t.map key (t.keys.length + 1)
    if g = 0 then ⟨t.keys ++ [key], t.first ++ [i + 1], t.last ++ [i + 1], t.next, map⟩
    else ⟨t.keys, t.first, t.last.set (g - 1) (i + 1), t.next.set ((t.last[g - 1]?).getD 0 - 1) (i + 1), map⟩

def hashRows (col : Nat) : List Inner → Nat → Table → Table
  | [], _, t => t
  | r :: rows, i, t => hashRows col rows (i + 1) (hashRow t i (r col))

def hashBuild (col : Nat) (rows : List Inner) : Table :=
  hashRows col rows 0 ⟨[], [], [], List.replicate rows.length 0, ⟨[], 0⟩⟩

def chase (next : List Nat) : Nat → Nat → List Nat
  | 0, _ => []
  | fuel + 1, cur => if cur = 0 then [] else (cur - 1) :: chase next fuel ((next[cur - 1]?).getD 0)

structure XScan where
  rows : List Inner
  table : Option Table

def offered (t : Table) (n : Nat) (d : Datum) : List Nat :=
  if d.isNull then []
  else
    match keyAppend [] d.bytes ⟨false, false⟩ with
    | (.ok, key, _) =>
      if t.map.slots.length = 0 then []
      else
        let g := (OpenHash.find keyHash (Table.keyOf t.keys) t.map key 0).2
        if g = 0 then [] else chase t.next n ((t.first[g - 1]?).getD 0)
    -- a probe with no key reads every row
    | _ => List.range n

def hashProbe (col : Nat) (probe : Ω → Except Errno Datum) (xs : XScan) (ω : Ω) : Except Errno (List Inner) × XScan :=
  let t := xs.table.getD (hashBuild col xs.rows)
  match probe ω with
  | .error e => (.error e, ⟨xs.rows, some t⟩)
  | .ok d => (.ok ((offered t xs.rows.length d).filterMap (fun i => xs.rows[i]?)), ⟨xs.rows, some t⟩)

/-! ## The join -/

structure Run (β : Type) where
  rows : List β
  refused : Option Errno

def Run.andThen {β : Type} (r r' : Run β) : Run β :=
  match r.refused with
  | some e => ⟨r.rows, some e⟩
  | none => ⟨r.rows ++ r'.rows, r'.refused⟩

/-- `join_level`, over what one opening offers: the conditions of ON, then those of WHERE, and the NULL-extended row. -/
def level (h : Host) (left : Bool) (on rest : List (Cond Ω)) (ω : Ω) : List Inner → Bool → Run (Option Inner)
  | [], matched =>
    if left ∧ matched = false then
      match check h ω none rest with
      | .error e => ⟨[], some e⟩
      | .ok true => ⟨[none], none⟩
      | .ok false => ⟨[], none⟩
    else ⟨[], none⟩
  | row :: rows, matched =>
    match check h ω (some row) on with
    | .error e => ⟨[], some e⟩
    | .ok false => level h left on rest ω rows matched
    | .ok true =>
      match check h ω (some row) rest with
      | .error e => ⟨[], some e⟩
      | .ok false => level h left on rest ω rows true
      | .ok true => ⟨some row :: (level h left on rest ω rows true).rows, (level h left on rest ω rows true).refused⟩

def withOuter (ω : Ω) (r : Run (Option Inner)) : Run (Ω × Option Inner) := ⟨r.rows.map (fun i => (ω, i)), r.refused⟩

/-- The nested loop: every opening reads the inner side whole. -/
def scanJoin (h : Host) (left : Bool) (on rest : List (Cond Ω)) (rows : List Inner) : List Ω → Run (Ω × Option Inner)
  | [] => ⟨[], none⟩
  | ω :: ωs => (withOuter ω (level h left on rest ω rows false)).andThen (scanJoin h left on rest rows ωs)

def hashJoin (h : Host) (left : Bool) (on rest : List (Cond Ω)) (col : Nat) (probe : Ω → Except Errno Datum) :
    XScan → List Ω → Run (Ω × Option Inner)
  | _, [] => ⟨[], none⟩
  | xs, ω :: ωs =>
    match hashProbe col probe xs ω with
    | (.error e, _) => ⟨[], some e⟩
    | (.ok rows, xs) => (withOuter ω (level h left on rest ω rows false)).andThen
        (hashJoin h left on rest col probe xs ωs)

end HashJoin
end Gbasic
