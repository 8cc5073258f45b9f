import Gbasic.Counted
import Gbasic.Bytes
/-!
# Cow — values that share until they are written

The values of the evaluator over a heap of counted blocks: an array points to its backing store, a record to its field
array and each field to a cell.  `α` is the scalars and the handles, whose copies name the same thing; a record of no
fields has no field array.  A function that changes a `Value *` takes the value and gives the one it leaves there.
-/
namespace Gbasic
namespace Cow

open Counted (Heap Pointing kids)

abbrev Name := List Byte

inductive Policy where
  | copy | link | reset | exclude
  deriving DecidableEq

inductive Val (α : Type) where
  | null
  | unknown
  | leaf (a : α)
  | array (store : Nat)
  | record (fields : Option Nat)
  /-- A function value with the context it was bound to. -/
  | bound (name : α) (context : Val α)
  deriving DecidableEq

/-- A record's field.  `reset` says which expression of the program its reset expression is. -/
structure Field where
  name : Name
  policy : Policy
  reset : Option Nat
  cell : Nat
  deriving DecidableEq

inductive Obj (α : Type) where
  /-- A backing store; `moves` counts the buffers it has grown out of. -/
  | store (moves capacity : Nat) (items : List (Val α))
  | fields (fs : List Field)
  | cell (v : Val α)
  deriving DecidableEq

variable {α : Type}

namespace Val

def targets : Val α → List Nat
  | array a => [a]
  | record (some f) => [f]
  | bound _ c => c.targets
  | _ => []

end Val

def Obj.kids : Obj α → List Nat
  | store _ _ items => items.flatMap Val.targets
  | fields fs => fs.map Field.cell
  | cell v => v.targets

instance : Pointing (Obj α) := ⟨Obj.kids⟩

abbrev Store (α : Type) := Heap (Obj α)

/-! ## Copying and freeing -/

def valueCopy (h : Store α) (v : Val α) : Store α := h.retainAll v.targets

def valueFree (h : Store α) (v : Val α) : Option (Store α) := h.releaseAll v.targets

def valueArray (h : Store α) (items : List (Val α)) : Store α × Val α :=
  (h.alloc (.store 0 items.length items), .array h.next)

def valueRecord (h : Store α) (fs : List Field) : Store α × Val α :=
  if fs = [] then (h, .record none) else (h.alloc (.fields fs), .record (some h.next))

def fieldsOf (h : Store α) : Option Nat → Option (List Field)
  | none => some []
  | some f =>
    match h.obj f with
    | some (.fields fs) => some fs
    | _ => none

def itemsOf (h : Store α) (a : Nat) : Option (List (Val α)) :=
  match h.obj a with
  | some (.store _ _ items) => some items
  | _ => none

def cellOf (h : Store α) (c : Nat) : Option (Val α) :=
  match h.obj c with
  | some (.cell v) => some v
  | _ => none

/-- `record_slot_of_n`. -/
def slotOf (fs : List Field) (name : Name) : Option Nat := fs.findIdx? (fun f => f.name = name)

/-! ## Detaching -/

def arrayEnsureUnique (h : Store α) (a : Nat) : Option (Store α × Nat) :=
  match h.obj a with
  | some (.store _ _ items) =>
    if h.refs a = 1 then some (h, a)
    else
      let h' := h.retainAll (items.flatMap Val.targets)
      some ((h'.alloc (.store 0 items.length items)).drop a, h'.next)
  | _ => none

def recordEnsureUnique (h : Store α) : Option Nat → Option (Store α × Option Nat)
  | none => some (h, none)
  | some f =>
    match h.obj f with
    | some (.fields fs) =>
      if h.refs f = 1 then some (h, some f)
      else
        let h' := h.retainAll (fs.map Field.cell)
        some ((h'.alloc (.fields fs)).drop f, some h'.next)
    | _ => none

/-- `cell_fork_for_write` of the `i`-th field of the field array `f`. -/
def cellForkForWrite (h : Store α) (f : Nat) (fs : List Field) (i : Nat) (field : Field) : Option (Store α × Nat) :=
  if field.policy = .link then some (h, field.cell)
  else if 1 < h.refs field.cell then do
    let v ← cellOf h field.cell
    let h' := valueCopy h v
    some (((h'.alloc (.cell v)).drop field.cell).store f (.fields (fs.set i { field with cell := h'.next })), h'.next)
  else some (h, field.cell)

/-! ## Changing a record or an array that is detached -/

/-- What `record_set_n` does to a field array of its own. -/
def fieldSet (h : Store α) (f : Nat) (fs : List Field) (name : Name) (x : Val α) : Option (Store α) :=
  match slotOf fs name with
  | some i => do
    let field ← fs[i]?
    if field.policy ≠ .link ∧ 1 < h.refs field.cell then do
      let h ← h.releaseAll [field.cell]
      let fs ← fieldsOf h (some f)
      some ((h.alloc (.cell x)).store f (.fields (fs.set i { field with cell := h.next })))
    else do
      let h ← valueFree h (← cellOf h field.cell)
      let _ ← cellOf h field.cell
      some (h.store field.cell (.cell x))
  | none => some ((h.alloc (.cell x)).store f (.fields (fs ++ [⟨name, .copy, none, h.next⟩])))

/-- `array_storage_reserve` for one more item: whether the buffer moves, and the capacity. -/
def reserve (moves capacity need : Nat) : Nat × Nat :=
  if need ≤ capacity then (moves, capacity)
  else (moves + 1, max (if capacity = 0 then 4 else capacity * 2) need)

/-- The append, prepend and insert into a backing store of its own, which grows by an item at a place. -/
def storeInsert (h : Store α) (a i : Nat) (x : Val α) : Option (Store α) :=
  match h.obj a with
  | some (.store moves capacity items) =>
    let (moves, capacity) := reserve moves capacity (items.length + 1)
    some (h.store a (.store moves capacity (items.take i ++ x :: items.drop i)))
  | _ => none

/-- An item of a backing store of its own freed, and its place given to what `edit` makes of the items. -/
def storeEdit (h : Store α) (a i : Nat) (edit : List (Val α) → List (Val α)) : Option (Store α) := do
  let items ← itemsOf h a
  let h ← valueFree h (← items[i]?)
  match h.obj a with
  | some (.store moves capacity items) => some (h.store a (.store moves capacity (edit items)))
  | _ => none

/-- What `remove_from_array_ref` does to one of its indices. -/
def storeRemove (h : Store α) (a i : Nat) : Option (Store α) := storeEdit h a i (·.eraseIdx i)

/-- The element write of `assign_lvalue`. -/
def storeSet (h : Store α) (a i : Nat) (x : Val α) : Option (Store α) := storeEdit h a i (·.set i x)

/-! ## Building records, deriving -/

structure Decl where
  name : Name
  policy : Policy
  reset : Option Nat
  deriving DecidableEq

def literalFields (h : Store α) : List (Decl × Val α) → Store α × List Field
  | [] => (h, [])
  | (d, v) :: l =>
    let (h', fs) := literalFields (h.alloc (.cell v)) l
    (h', ⟨d.name, d.policy, d.reset, h.next⟩ :: fs)

def anyOf (p : Val α → Option Bool) : List (Val α) → Option Bool
  | [] => some false
  | v :: l => do if ← p v then some true else anyOf p l

/-- `value_holds_record`, nothing where it has not come back by `n` calls. -/
def valueHoldsRecord : Nat → Store α → Val α → Option Bool
  | 0, _, _ => none
  | _ + 1, _, .record _ => some true
  | n + 1, h, .array a => do anyOf (valueHoldsRecord n h) (← itemsOf h a)
  | _ + 1, _, _ => some false

/-- A derivation under way: the heap, and the values that the reset expressions still to be asked give. -/
abbrev Deriving (α : Type) := Store α × List (Val α)

/-- The loop of `derive_array`. -/
def deriveItems (derive : Deriving α → Val α → Option (Deriving α × Val α)) :
    Deriving α → List (Val α) → Option (Deriving α × List (Val α))
  | d, [] => some (d, [])
  | d, v :: l => do
    let (d, v') ← derive d v
    let (d, l') ← deriveItems derive d l
    some (d, v' :: l')

def derivesAgain (holds : Store α → Val α → Option Bool) (h : Store α) (v : Val α) : Option Bool :=
  match v with
  | .record _ => some true
  | .array _ => holds h v
  | _ => some false

/-- One field of `derive_record`, an excluded one giving none. -/
def deriveField (holds : Store α → Val α → Option Bool) (derive : Deriving α → Val α → Option (Deriving α × Val α))
    (d : Deriving α) (src : Field) : Option (Deriving α × List Field) :=
  match src.policy with
  | .exclude => some (d, [])
  | .link => some ((d.1.retain src.cell, d.2), [src])
  | .reset =>
    match src.reset, d.2 with
    | none, rs => some ((d.1.alloc (.cell .null), rs), [{ src with cell := d.1.next }])
    | some _, v :: rs => some ((d.1.alloc (.cell v), rs), [{ src with cell := d.1.next }])
    | some _, [] => none
  | .copy => do
    let v ← cellOf d.1 src.cell
    if ← derivesAgain holds d.1 v then do
      let (d, v') ← derive d v
      some ((d.1.alloc (.cell v'), d.2), [{ src with cell := d.1.next }])
    else some ((d.1.retain src.cell, d.2), [src])

/-- The loop of `derive_record`. -/
def deriveFields (field : Deriving α → Field → Option (Deriving α × List Field)) :
    Deriving α → List Field → Option (Deriving α × List Field)
  | d, [] => some (d, [])
  | d, f :: l => do
    let (d, out) ← field d f
    let (d, out') ← deriveFields field d l
    some (d, out ++ out')

/-- `derive_record` of a record, `derive_array` of an array that holds one, `value_copy` of anything else. -/
def derive : Nat → Deriving α → Val α → Option (Deriving α × Val α)
  | 0, _, _ => none
  | n + 1, d, .record f => do
    let fs ← fieldsOf d.1 f
    let (d, out) ← deriveFields (deriveField (valueHoldsRecord n) (derive n)) d fs
    let (h, v) := valueRecord d.1 out
    some ((h, d.2), v)
  | n + 1, d, .array a => do
    if ← valueHoldsRecord n d.1 (.array a) then do
      let (d, out) ← deriveItems (derive n) d (← itemsOf d.1 a)
      let (h, v) := valueArray d.1 out
      some ((h, d.2), v)
    else some ((valueCopy d.1 (.array a), d.2), .array a)
  | _ + 1, d, v => some ((valueCopy d.1 v, d.2), v)

/-- One `with` override of `new`: an instance of its own gets a fresh cell under the override's policy. -/
def override (h : Store α) (r : Option Nat) (wf : Field) : Option (Store α × Option Nat) := do
  let v ← cellOf h wf.cell
  let h := valueCopy h v
  let fresh (name : Name) : Field := ⟨name, wf.policy, wf.reset, h.next⟩
  match r with
  | none => some ((h.alloc (.cell v)).alloc (.fields [fresh wf.name]), some (h.next + 1))
  | some f => do
    let fs ← fieldsOf h (some f)
    match slotOf fs wf.name with
    | some i => do
      let existing ← fs[i]?
      let h' ← (h.alloc (.cell v)).releaseAll [existing.cell]
      let fs ← fieldsOf h' (some f)
      some (h'.store f (.fields (fs.set i (fresh existing.name))), some f)
    | none => some ((h.alloc (.cell v)).store f (.fields (fs ++ [fresh wf.name])), some f)

def overrideAll : Store α → Option Nat → List Field → Option (Store α × Option Nat)
  | h, r, [] => some (h, r)
  | h, r, wf :: l => do
    let (h, r) ← override h r wf
    overrideAll h r l

/-! ## Walking a value

The C types of the pointers say what is behind each; a walk gets nothing out of a block of another kind, and stops at a
block that is gone. -/

namespace Obj

def items : Obj α → List (Val α)
  | store _ _ l => l
  | _ => []

def fieldList : Obj α → List Field
  | fields fs => fs
  | _ => []

def content : Obj α → Val α
  | cell v => v
  | _ => .null

end Obj

def itemsIn (h : Store α) (a : Nat) : Option (List (Val α)) := (h.obj a).map Obj.items

def fieldsIn (h : Store α) : Option Nat → Option (List Field)
  | none => some []
  | some f => (h.obj f).map Obj.fieldList

def contentIn (h : Store α) (c : Nat) : Option (Val α) := (h.obj c).map Obj.content

def allOf (p : Val α → Val α → Option Bool) : List (Val α) → List (Val α) → Option Bool
  | v :: l, w :: m => do if ← p v w then allOf p l m else some false
  | _, _ => some true

def fieldsEqual (h : Store α) (p : Val α → Val α → Option Bool) (right : List Field) : List Field → Option Bool
  | [] => some true
  | f :: l =>
    match right.find? (fun g => g.name = f.name) with
    | none => some false
    | some g => do if ← p (← contentIn h f.cell) (← contentIn h g.cell) then fieldsEqual h p right l else some false

/-- `value_storage_equal`, `same` comparing the scalars, handles and function names; nothing where it has not come back
by `n` calls. -/
def valueStorageEqual (same : α → α → Bool) : Nat → Store α → Val α → Val α → Option Bool
  | 0, _, _, _ => none
  | n + 1, h, v, w =>
    match v, w with
    | .null, .null => some true
    | .unknown, .unknown => some true
    | .leaf a, .leaf b => some (same a b)
    | .leaf a, .bound b _ => some (same a b)
    | .bound a _, .leaf b => some (same a b)
    | .bound a _, .bound b _ => some (same a b)
    | .array a, .array b =>
      if a = b then some true
      else do
        let l ← itemsIn h a
        let m ← itemsIn h b
        if l.length = m.length then allOf (valueStorageEqual same n h) l m else some false
    | .record f, .record g => do
      let l ← fieldsIn h f
      let m ← fieldsIn h g
      if l.length = m.length then fieldsEqual h (valueStorageEqual same n h) m l else some false
    | _, _ => some false

/-- The modes of the text walker: `encode`, `json_encode`, and `string` and `print`. -/
inductive RenderMode where
  | encode | json | display
  deriving DecidableEq

structure Spelling (α : Type) where
  null : RenderMode → Option (List Byte)
  unknown : RenderMode → Option (List Byte)
  leaf : RenderMode → α → Option (List Byte)
  bound : RenderMode → α → Option (List Byte)
  name : Name → List Byte

/-- The texts of a list of parts with commas between, an answer of `none` being a refusal that stops the walk. -/
def joined {β : Type} (part : β → Option (Option (List Byte))) : List β → Option (Option (List Byte))
  | [] => some (some [])
  | [b] => part b
  | b :: l => do
    match ← part b with
    | none => some none
    | some t => do
      match ← joined part l with
      | none => some none
      | some u => some (some (t ++ text "," ++ u))

def encodeField (sp : Spelling α) (part : Val α → Option (Option (List Byte))) (h : Store α) (field : Field) :
    Option (Option (List Byte)) := do
  let t ← part (← contentIn h field.cell)
  some (t.map (fun t => sp.name field.name ++ text ":" ++ t))

/-- `encode_value_to_builder`: the outer nothing where it has not come back by `n` calls. -/
def encodeValue (sp : Spelling α) (mode : RenderMode) : Nat → Store α → Val α → Option (Option (List Byte))
  | 0, _, _ => none
  | _ + 1, _, .null => some (sp.null mode)
  | _ + 1, _, .unknown => some (sp.unknown mode)
  | _ + 1, _, .leaf a => some (sp.leaf mode a)
  | _ + 1, _, .bound a _ => some (sp.bound mode a)
  | n + 1, h, .array a => do
    let t ← joined (encodeValue sp mode n h) (← itemsIn h a)
    some (t.map (fun t => text "[" ++ t ++ text "]"))
  | n + 1, h, .record f => do
    let t ← joined (encodeField sp (encodeValue sp mode n h) h) (← fieldsIn h f)
    some (t.map (fun t => text "\x7b" ++ t ++ text "\x7d"))

end Cow
end Gbasic
