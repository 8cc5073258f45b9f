import Gbasic.Cow
/-!
# CowStep — what the evaluator does to its values

A state is the heap, the variables of every frame, the values that the expression under way holds in its hand, and the
places it holds: those its assignments and calls resolved, and the receiver of each method that runs.  A program's run
is a list of the small steps its expressions and statements are made of; where two of them raise no error and no step
is between, nothing else has looked at what they hold.  A step gives nothing where the program would touch memory that
is gone or not come back from a walk.
-/
namespace Gbasic
namespace Cow

variable {α : Type}

structure Symbol (α : Type) where
  frame : Nat
  name : Name
  value : Val α

/-- One step of a path; `record[string]` resolves as the field does. -/
inductive PathStep where
  | field (name : Name)
  | index (i : Int)
  deriving DecidableEq

/-- What a `Value *` points at: a variable, an item of the buffer that a backing store had, a field's cell. -/
inductive Place where
  | var (frame : Nat) (name : Name)
  | item (store moves i : Nat)
  | cell (c : Nat)
  deriving DecidableEq

structure Borrow where
  place : Place
  frame : Nat
  name : Name
  path : List PathStep
  deriving DecidableEq

structure State (α : Type) where
  heap : Store α
  symbols : List (Symbol α)
  /-- The frame that runs, 0 being the global one. -/
  depth : Nat
  hand : List (Val α)
  held : List Borrow
  /-- `current_this` of the frame that runs and of those below. -/
  this : List (Option Borrow)

namespace State

def findInFrame (symbols : List (Symbol α)) (frame : Nat) (name : Name) : Option (Val α) :=
  (symbols.find? (fun s => s.frame = frame ∧ s.name = name)).map Symbol.value

def setSymbol (frame : Nat) (name : Name) (v : Val α) : List (Symbol α) → List (Symbol α)
  | [] => []
  | s :: l => if s.frame = frame ∧ s.name = name then { s with value := v } :: l else s :: setSymbol frame name v l

def envFind (s : State α) (name : Name) : Option Nat :=
  if (findInFrame s.symbols s.depth name).isSome then some s.depth
  else if (findInFrame s.symbols 0 name).isSome then some 0 else none

def get (s : State α) : Place → Option (Val α)
  | .var frame name => findInFrame s.symbols frame name
  | .item a moves i =>
    match s.heap.obj a with
    | some (.store m _ items) => if m = moves then items[i]? else none
    | _ => none
  | .cell c => cellOf s.heap c

def put (s : State α) (p : Place) (v : Val α) : Option (State α) :=
  match p with
  | .var frame name => some { s with symbols := setSymbol frame name v s.symbols }
  | .item a moves i =>
    match s.heap.obj a with
    | some (.store m capacity items) =>
      if m = moves then some { s with heap := s.heap.store a (.store m capacity (items.set i v)) } else none
    | _ => none
  | .cell c =>
    match s.heap.obj c with
    | some (.cell _) => some { s with heap := s.heap.store c (.cell v) }
    | _ => none

def push (s : State α) (v : Val α) : State α := { s with hand := v :: s.hand }

/-- The calls after which a walk has met every block there is. -/
def calls (h : Store α) : Nat := h.next + 1

def envSet (s : State α) (name : Name) (v : Val α) : Option (State α) :=
  match findInFrame s.symbols s.depth name with
  | some old => do
    let h ← valueFree s.heap old
    some { s with heap := h, symbols := setSymbol s.depth name v s.symbols }
  | none => some { s with symbols := s.symbols ++ [⟨s.depth, name, v⟩] }

end State

inductive Spot where
  | front | back
  | index (i : Int)
  deriving DecidableEq

/-- The index of a spot in an array of `n` items, nothing where it is out of range. -/
def Spot.at? (n : Nat) : Spot → Option Nat
  | front => some 0
  | back => some n
  | index i => if 0 ≤ i ∧ i.toNat ≤ n then some i.toNat else none

def itemAt (n : Nat) (i : Int) : Option Nat := if 0 ≤ i ∧ i.toNat < n then some i.toNat else none

inductive Op (α : Type) where
  -- expressions
  | nothing
  | unknown
  | literal (a : α)
  | read (name : Name)
  | readThis
  /-- `bound(f, context)`. -/
  | bind (name : α)
  | array (n : Nat)
  | record (decls : List Decl)
  | index (i : Int)
  | key (name : Name)
  | field (name : Name)
  /-- `new`, the values of the reset expressions it asks being the last `n` in the hand. -/
  | derive (n : Nat)
  /-- The `with` of a `new`. -/
  | override
  /-- `append`, `prepend` and `insert` of an array that is no place. -/
  | insert (spot : Spot)
  | drop
  -- places
  | borrow (name : Name)
  | borrowThis
  | stepField (name : Name)
  | stepIndex (i : Int)
  | letGo
  -- writes
  | assign (name : Name)
  | assignThis
  | setField (name : Name)
  | setIndex (i : Int)
  | insertTo (spot : Spot)
  | removeAt (i : Int)
  -- calls
  | call (method : Bool)
  | param (name : Name)
  | leave

namespace State

def extract (s : State α) (rest : List (Val α)) (container v : Val α) : Option (State α) := do
  let h ← valueFree (valueCopy s.heap v) container
  some { s with heap := h, hand := v :: rest }

def replace (s : State α) (rest : List (Val α)) (old v : Val α) : Option (State α) := do
  let h ← valueFree s.heap old
  some { s with heap := h, hand := v :: rest }

def discard (s : State α) (rest : List (Val α)) (old : Val α) : Option (State α) := do
  let h ← valueFree s.heap old
  some { s with heap := h, hand := rest }

/-- `array_ensure_unique` of the array at a place. -/
def detachArray (s : State α) (p : Place) (a : Nat) : Option (State α × Nat) := do
  let (h, a) ← arrayEnsureUnique s.heap a
  some (← ({ s with heap := h } : State α).put p (.array a), a)

/-- `record_ensure_unique` of the record at a place. -/
def detachRecord (s : State α) (p : Place) (r : Option Nat) : Option (State α × Option Nat) := do
  let (h, r) ← recordEnsureUnique s.heap r
  some (← ({ s with heap := h } : State α).put p (.record r), r)

def editArray (s : State α) (b : Borrow) (bs : List Borrow) (a : Nat)
    (edit : Store α → Nat → Option (Store α)) : Option (State α) := do
  let (s, a) ← s.detachArray b.place a
  let h ← edit s.heap a
  some { s with heap := valueCopy h (.array a), hand := .array a :: s.hand, held := bs }

/-- `record_set_n` of the record at a place. -/
def recordSet (s : State α) (p : Place) (r : Option Nat) (name : Name) (x : Val α) : Option (State α) := do
  match ← s.detachRecord p r with
  | (s, none) => do
    let h := (s.heap.alloc (.cell x)).alloc (.fields [⟨name, .copy, none, s.heap.next⟩])
    ({ s with heap := h } : State α).put p (.record (some (s.heap.next + 1)))
  | (s, some f) => do
    let fs ← fieldsOf s.heap (some f)
    some { s with heap := ← fieldSet s.heap f fs name x }

def evalExpr (s : State α) : Op α → Option (State α)
  | .nothing => some (s.push .null)
  | .unknown => some (s.push .unknown)
  | .literal a => some (s.push (.leaf a))
  | .read name =>
    match s.envFind name with
    | none => some (s.push .null)
    | some frame => do
      let v ← findInFrame s.symbols frame name
      some { s with heap := valueCopy s.heap v, hand := v :: s.hand }
  | .readThis =>
    match s.this with
    | some b :: _ => do
      let v ← s.get b.place
      some { s with heap := valueCopy s.heap v, hand := v :: s.hand }
    | _ => some (s.push .null)
  | .bind a =>
    match s.hand with
    | ctx :: rest => some { s with hand := .bound a ctx :: rest }
    | [] => none
  | .array n =>
    if n ≤ s.hand.length then
      let r := valueArray s.heap (s.hand.take n).reverse
      some { s with heap := r.1, hand := r.2 :: s.hand.drop n }
    else none
  | .record decls =>
    if decls.length ≤ s.hand.length then
      let l := literalFields s.heap (decls.zip (s.hand.take decls.length).reverse)
      let r := valueRecord l.1 l.2
      some { s with heap := r.1, hand := r.2 :: s.hand.drop decls.length }
    else none
  | .index i =>
    match s.hand with
    | .array a :: rest => do
      let items ← itemsOf s.heap a
      match (itemAt items.length i).bind (items[·]?) with
      | some v => s.extract rest (.array a) v
      | none => s.replace rest (.array a) .null
    | v :: rest => s.replace rest v .null
    | [] => none
  | .key name =>
    match s.hand with
    | .record f :: rest => do
      let fs ← fieldsOf s.heap f
      match fs.find? (fun g => g.name = name) with
      | some field => s.extract rest (.record f) (← cellOf s.heap field.cell)
      | none => s.replace rest (.record f) .unknown
    | v :: rest => s.replace rest v .null
    | [] => none
  | .field name =>
    match s.hand with
    | .record f :: rest => do
      let fs ← fieldsOf s.heap f
      match fs.find? (fun g => g.name = name) with
      | some field => s.extract rest (.record f) (← cellOf s.heap field.cell)
      | none => s.replace rest (.record f) .null
    | .array _ :: _ => none
    | v :: rest => s.replace rest v .null
    | [] => none
  | .derive n =>
    match s.hand.drop n with
    | .record f :: rest => do
      let (d, v) ← derive (calls s.heap) (s.heap, (s.hand.take n).reverse) (.record f)
      if d.2.isEmpty then ({ s with heap := d.1 } : State α).replace rest (.record f) v else none
    | v :: rest => if n = 0 then s.replace rest v .null else none
    | [] => none
  | .override =>
    match s.hand with
    | .record g :: .record r :: rest => do
      let fs ← fieldsOf s.heap g
      -- the instance is one that `new` has just made
      if r.all (fun f => s.heap.refs f = 1) then do
        let (h, r) ← overrideAll s.heap r fs
        ({ s with heap := h } : State α).replace rest (.record g) (.record r)
      else none
    | _ => none
  | .insert spot =>
    match s.hand with
    | .array a :: x :: rest => do
      let items ← itemsOf s.heap a
      match spot.at? items.length with
      | some i => do
        let (h, a) ← arrayEnsureUnique s.heap a
        some { s with heap := ← storeInsert h a i x, hand := .array a :: rest }
      | none => do
        let h ← valueFree s.heap (.array a)
        ({ s with heap := h } : State α).replace rest x .null
    | v :: x :: rest => do
      let h ← valueFree s.heap v
      ({ s with heap := h } : State α).replace rest x .null
    | _ => none
  | .drop =>
    match s.hand with
    | v :: rest => s.discard rest v
    | [] => none
  | _ => none

/-- `resolve_lvalue_ref`, a step at a time. -/
def resolve (s : State α) : Op α → Option (State α)
  | .borrow name =>
    match s.envFind name with
    | some frame => some { s with held := ⟨.var frame name, frame, name, []⟩ :: s.held }
    | none => some s
  | .borrowThis =>
    match s.this with
    | some b :: _ => some { s with held := b :: s.held }
    | _ => some s
  | .stepField name =>
    match s.held with
    | [] => none
    | b :: bs => do
      match ← s.get b.place with
      | .record r => do
        match ← s.detachRecord b.place r with
        | (s, none) => some { s with held := bs }
        | (s, some f) => do
          let fs ← fieldsOf s.heap (some f)
          match slotOf fs name with
          | none => some { s with held := bs }
          | some i => do
            let (h, c) ← cellForkForWrite s.heap f fs i (← fs[i]?)
            some { s with heap := h, held := { b with place := .cell c, path := b.path ++ [.field name] } :: bs }
      | _ => some { s with held := bs }
  | .stepIndex i =>
    match s.held with
    | [] => none
    | b :: bs => do
      match ← s.get b.place with
      | .array a => do
        let items ← itemsOf s.heap a
        match itemAt items.length i with
        | none => some { s with held := bs }
        | some k => do
          let (s, a) ← s.detachArray b.place a
          match s.heap.obj a with
          | some (.store moves _ _) =>
            some { s with held := { b with place := .item a moves k, path := b.path ++ [.index i] } :: bs }
          | _ => none
      | _ => some { s with held := bs }
  | .letGo => some { s with held := s.held.tail }
  | _ => none

def sameSymbol (same : α → α → Bool) (s : State α) (name : Name) (v : Val α) : Option Bool :=
  match findInFrame s.symbols s.depth name with
  | some old => valueStorageEqual same (calls s.heap) s.heap old v
  | none => some false

def sameField (same : α → α → Bool) (s : State α) (r : Option Nat) (name : Name) (v : Val α) : Option Bool := do
  let fs ← fieldsOf s.heap r
  match fs.find? (fun g => g.name = name) with
  | some field => do valueStorageEqual same (calls s.heap) s.heap (← cellOf s.heap field.cell) v
  | none => some false

def sameItem (same : α → α → Bool) (s : State α) (items : List (Val α)) (i : Nat) (v : Val α) : Option Bool := do
  valueStorageEqual same (calls s.heap) s.heap (← items[i]?) v

/-- The writes: `assign_lvalue` and the verbs that change an array at a place. -/
def write (same : α → α → Bool) (s : State α) : Op α → Option (State α)
  | .assign name =>
    match s.hand with
    | v :: rest => do
      if ← s.sameSymbol same name v then s.discard rest v else ({ s with hand := rest } : State α).envSet name v
    | [] => none
  | .assignThis =>
    -- both `assign_lvalue` and the statement free the value
    match s.hand with
    | v :: rest => do ({ s with heap := ← valueFree s.heap v } : State α).discard rest v
    | [] => none
  | .setField name =>
    match s.held, s.hand with
    | b :: bs, v :: rest => do
      match ← s.get b.place with
      | .record r => do
        if ← s.sameField same r name v then ({ s with held := bs } : State α).discard rest v
        else ({ s with hand := rest, held := bs } : State α).recordSet b.place r name v
      | _ => ({ s with held := bs } : State α).discard rest v
    | _, _ => none
  | .setIndex i =>
    match s.held, s.hand with
    | b :: bs, v :: rest => do
      match ← s.get b.place with
      | .array a => do
        let items ← itemsOf s.heap a
        match itemAt items.length i with
        | none => ({ s with held := bs } : State α).discard rest v
        | some k => do
          if ← s.sameItem same items k v then
            ({ s with held := bs } : State α).discard rest v
          else do
            let (s, a) ← ({ s with hand := rest, held := bs } : State α).detachArray b.place a
            some { s with heap := ← storeSet s.heap a k v }
      | _ => ({ s with held := bs } : State α).discard rest v
    | _, _ => none
  | .insertTo spot =>
    match s.held, s.hand with
    | b :: bs, x :: rest => do
      match ← s.get b.place with
      | .array a => do
        let items ← itemsOf s.heap a
        match spot.at? items.length with
        | none => ({ s with held := bs } : State α).replace rest x .null
        | some i => ({ s with hand := rest } : State α).editArray b bs a (fun h a => storeInsert h a i x)
      | _ => ({ s with held := bs } : State α).replace rest x .null
    | _, _ => none
  | .removeAt i =>
    match s.held with
    | b :: bs => do
      match ← s.get b.place with
      | .array a => do
        let items ← itemsOf s.heap a
        match itemAt items.length i with
        | none => some (({ s with held := bs } : State α).push .null)
        | some k => s.editArray b bs a (fun h a => storeRemove h a k)
      | _ => some (({ s with held := bs } : State α).push .null)
    | [] => none
  | _ => none

/-- `invoke_function`: the frame, its parameters, its end. -/
def invoke (s : State α) : Op α → Option (State α)
  | .call true =>
    match s.held with
    | b :: bs => some { s with depth := s.depth + 1, held := bs, this := some b :: s.this }
    | [] => none
  | .call false => some { s with depth := s.depth + 1, this := none :: s.this }
  | .param name =>
    match s.hand with
    | v :: rest => ({ s with hand := rest } : State α).envSet name v
    | [] => none
  | .leave =>
    if s.depth = 0 then none
    else do
      let gone := s.symbols.filter (fun x => x.frame = s.depth)
      let h ← s.heap.releaseAll (gone.flatMap (fun x => x.value.targets))
      some { s with
        heap := h, symbols := s.symbols.filter (fun x => x.frame ≠ s.depth), depth := s.depth - 1, this := s.this.tail }
  | _ => none

end State

def step (same : α → α → Bool) (s : State α) (op : Op α) : Option (State α) :=
  match op with
  | .borrow _ | .borrowThis | .stepField _ | .stepIndex _ | .letGo => s.resolve op
  | .assign _ | .assignThis | .setField _ | .setIndex _ | .insertTo _ | .removeAt _ => s.write same op
  | .call _ | .param _ | .leave => s.invoke op
  | _ => s.evalExpr op

/-- The state a program starts in. -/
def State.init : State α := ⟨⟨fun _ => none, 0⟩, [], 0, [], [], []⟩

def run (same : α → α → Bool) (s : State α) : List (Op α) → Option (State α)
  | [] => some s
  | op :: ops => do run same (← step same s op) ops

def State.roots (s : State α) : List Nat :=
  s.symbols.flatMap (fun x => x.value.targets) ++ s.hand.flatMap Val.targets

end Cow
end Gbasic
