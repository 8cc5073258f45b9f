import Gbasic.RecordIndex
import Gbasic.Counted
import Gbasic.Cow
/-!
# RecordHeap — records looked up, copied and set

A record's field array is counted, and each of its cells: a copy counts the array once more, and a write to a record
that shares one first takes a copy of it.  The index is the array's own, so a copy starts without.  An array that has
grown out of its block is the same one here, for nothing but its owner names it.
-/
namespace Gbasic
namespace Records

open Cow (Name Field Policy Decl)
open Counted Counted.Heap

inductive Obj (α : Type) where
  | fields (header : RecordHeader) (fs : List Field)
  | cell (v : α)

def Obj.kids {α : Type} : Obj α → List Nat
  | fields _ fs => fs.map Field.cell
  | cell _ => []

instance {α : Type} : Pointing (Obj α) := ⟨Obj.kids⟩

/-- A record value: its field array, which an empty one has none of, and how many fields. -/
structure RecordValue where
  fields : Option Nat
  count : Nat

variable {α : Type}

def newHeader (capacity : Nat) : RecordHeader := ⟨capacity, none, 0⟩

def recordFieldsAdopt (h : Heap (Obj α)) (fs : List Field) : Heap (Obj α) × Option Nat :=
  if fs = [] then (h, none) else (h.alloc (.fields (newHeader fs.length) fs), some h.next)

def valueRecord (h : Heap (Obj α)) (fs : List Field) : Heap (Obj α) × RecordValue :=
  ((recordFieldsAdopt h fs).1, ⟨(recordFieldsAdopt h fs).2, fs.length⟩)

def recordFieldsRetain (h : Heap (Obj α)) (r : RecordValue) : Heap (Obj α) := h.retainAll r.fields.toList

/-- The free of a record value: `record_fields_release`, and the cells where it was the last. -/
def recordFree (h : Heap (Obj α)) (r : RecordValue) : Option (Heap (Obj α)) := h.releaseAll r.fields.toList

def recordEnsureUnique (h : Heap (Obj α)) (r : RecordValue) : Option (Heap (Obj α) × RecordValue) :=
  match r.fields with
  | none => some (h, r)
  | some f =>
    match h.obj f with
    | some (.fields _ fs) =>
      if h.refs f = 1 then some (h, r)
      else
        let copy := recordFieldsAdopt ((h.retainAll ((fs.take r.count).map Field.cell)).drop f) (fs.take r.count)
        some (copy.1, ⟨copy.2, r.count⟩)
    | _ => none

/-- `record_find_n` and `record_find_const_n`: a slot, and the heap with the table that was built for it. -/
def recordFind (h : Heap (Obj α)) (r : RecordValue) (name : Name) : Option (Heap (Obj α) × Option Nat) :=
  match r.fields with
  | none => some (h, none)
  | some f =>
    match h.obj f with
    | some (.fields header fs) =>
      match slotOf header (fs.map Field.name) r.count name with
      | none => none
      | some (slot, header) => some (h.store f (.fields header fs), if slot < r.count then some slot else none)
    | _ => none

/-- What `record_set_n` does to a field that there is. -/
def fieldWrite (h : Heap (Obj α)) (f i : Nat) (header : RecordHeader) (fs : List Field) (g : Field) (v : α) :
    Heap (Obj α) :=
  if g.policy ≠ .link ∧ 1 < h.refs g.cell then
    ((h.drop g.cell).alloc (.cell v)).store f (.fields header (fs.set i { g with cell := h.next }))
  else h.store g.cell (.cell v)

def recordFieldsReserve (h : Heap (Obj α)) (fields : Option Nat) (need : Nat) : Option (Heap (Obj α) × Nat) :=
  match fields with
  | none => some (h.alloc (.fields (newHeader (max 4 need)) []), h.next)
  | some f =>
    match h.obj f with
    | some (.fields header fs) =>
      if need ≤ header.capacity then some (h, f)
      else
        let capacity := max (if header.capacity = 0 then 4 else header.capacity * 2) need
        some (h.store f (.fields { header with capacity := capacity } fs), f)
    | _ => none

def indexAppend (header : RecordHeader) (names : List Name) (slot : Nat) : Option RecordHeader :=
  match header.buckets with
  | none => some header
  | some buckets =>
    if header.indexed ≠ slot ∨ buckets.length < (slot + 1) * 2 then indexBuild header names (slot + 1)
    else
      match indexInsert names buckets slot with
      | none => none
      | some buckets => some { header with buckets := some buckets, indexed := slot + 1 }

/-- The append of `record_set_n`. -/
def recordAppend (h : Heap (Obj α)) (r : RecordValue) (name : Name) (v : α) : Option (Heap (Obj α) × RecordValue) :=
  match recordFieldsReserve h r.fields (r.count + 1) with
  | none => none
  | some (h, f) =>
    match h.obj f with
    | some (.fields header fs) =>
      let fs := fs ++ [⟨name, .copy, none, h.next⟩]
      match indexAppend header (fs.map Field.name) r.count with
      | none => none
      | some header => some ((h.alloc (.cell v)).store f (.fields header fs), ⟨some f, r.count + 1⟩)
    | _ => none

/-- `record_set_n`. -/
def recordSet (h : Heap (Obj α)) (r : RecordValue) (name : Name) (v : α) : Option (Heap (Obj α) × RecordValue) :=
  match recordEnsureUnique h r with
  | none => none
  | some (h, r) =>
    match recordFind h r name with
    | none => none
    | some (h, none) => recordAppend h r name v
    | some (h, some i) =>
      match r.fields with
      | none => none
      | some f =>
        match h.obj f with
        | some (.fields header fs) => (fs[i]?).map (fun g => (fieldWrite h f i header fs g v, r))
        | _ => none

def literalFields (h : Heap (Obj α)) : List (Decl × α) → Heap (Obj α) × List Field
  | [] => (h, [])
  | (d, v) :: l =>
    let rest := literalFields (h.alloc (.cell v)) l
    (rest.1, ⟨d.name, d.policy, d.reset, h.next⟩ :: rest.2)

/-! ## What is seen of a record -/

structure Row (α : Type) where
  name : Name
  policy : Policy
  reset : Option Nat
  value : Option α

def contentOf (h : Heap (Obj α)) (c : Nat) : Option α :=
  match h.obj c with
  | some (.cell v) => some v
  | _ => none

def fieldsOf (h : Heap (Obj α)) (r : RecordValue) : List Field :=
  match r.fields with
  | none => []
  | some f =>
    match h.obj f with
    | some (.fields _ fs) => fs
    | _ => []

def rowOf (h : Heap (Obj α)) (g : Field) : Row α := ⟨g.name, g.policy, g.reset, contentOf h g.cell⟩

def rows (h : Heap (Obj α)) (r : RecordValue) : List (Row α) := (fieldsOf h r).map (rowOf h)

/-! ## Heaps of records -/

@[simp] theorem kids_fields (header : RecordHeader) (fs : List Field) :
    kids (Obj.fields header fs : Obj α) = fs.map Field.cell := rfl

@[simp] theorem kids_cell (v : α) : kids (Obj.cell v) = [] := rfl

structure Stands (h : Heap (Obj α)) (header : RecordHeader) (fs : List Field) : Prop where
  cells : ∀ g ∈ fs, ∃ v, h.obj g.cell = some (.cell v)
  distinct : (fs.map Field.cell).Nodup
  current : Current header (fs.map Field.name)

def Arrays (h : Heap (Obj α)) : Prop := ∀ f header fs, h.obj f = some (.fields header fs) → Stands h header fs

def Names (h : Heap (Obj α)) (r : RecordValue) : Prop :=
  match r.fields with
  | none => r.count = 0
  | some f => ∃ header fs, h.obj f = some (.fields header fs) ∧ fs.length = r.count

/-- What is in cells stays, and so do the fields of arrays, but for the headers. -/
structure Keeps (h h' : Heap (Obj α)) : Prop where
  cell : ∀ c v, h.obj c = some (.cell v) → h'.obj c = some (.cell v)
  fields : ∀ f header fs, h.obj f = some (.fields header fs) → ∃ header', h'.obj f = some (.fields header' fs)

theorem Keeps.trans {h h' h'' : Heap (Obj α)} (h1 : Keeps h h') (h2 : Keeps h' h'') : Keeps h h'' where
  cell c v hc := h2.cell c v (h1.cell c v hc)
  fields f header fs hf := by
    obtain ⟨header', hf'⟩ := h1.fields f header fs hf
    exact h2.fields f header' fs hf'

theorem Keeps.of_obj {h h' : Heap (Obj α)} (ho : ∀ c x, h.obj c = some x → h'.obj c = some x) : Keeps h h' :=
  ⟨fun c _ hc => ho c _ hc, fun f header _ hf => ⟨header, ho f _ hf⟩⟩

theorem fieldsOf_some {h : Heap (Obj α)} {r : RecordValue} {f : Nat} {header : RecordHeader} {fs : List Field}
    (hf : r.fields = some f) (ho : h.obj f = some (.fields header fs)) : fieldsOf h r = fs := by
  unfold fieldsOf
  rw [hf]
  dsimp only
  rw [ho]

theorem fieldsOf_none {h : Heap (Obj α)} {r : RecordValue} (hf : r.fields = none) : fieldsOf h r = [] := by
  unfold fieldsOf
  rw [hf]

theorem Names.length {h : Heap (Obj α)} {r : RecordValue} (hr : Names h r) : (fieldsOf h r).length = r.count := by
  unfold Names at hr
  rcases hf : r.fields with _ | f
  · rw [hf] at hr
    rw [fieldsOf_none hf, hr]
    rfl
  · rw [hf] at hr
    obtain ⟨header, fs, ho, hlen⟩ := hr
    rw [fieldsOf_some hf ho, hlen]

theorem Names.some {h : Heap (Obj α)} {r : RecordValue} (hr : Names h r) {f : Nat} (hf : r.fields = some f) :
    ∃ header, h.obj f = some (.fields header (fieldsOf h r)) := by
  have hn := hr
  unfold Names at hn
  rw [hf] at hn
  obtain ⟨header, fs, ho, -⟩ := hn
  rw [fieldsOf_some hf ho]
  exact ⟨header, ho⟩

theorem Arrays.cells {h : Heap (Obj α)} (ha : Arrays h) {r : RecordValue} (hr : Names h r) :
    ∀ g ∈ fieldsOf h r, ∃ v, h.obj g.cell = some (.cell v) := by
  intro g hg
  rcases hf : r.fields with _ | f
  · rw [fieldsOf_none hf] at hg
    cases hg
  · obtain ⟨header, ho⟩ := hr.some hf
    exact (ha f header _ ho).cells g hg

theorem Keeps.names {h h' : Heap (Obj α)} (hk : Keeps h h') {r : RecordValue} (hr : Names h r) :
    Names h' r ∧ fieldsOf h' r = fieldsOf h r := by
  rcases hf : r.fields with _ | f
  · unfold Names at hr ⊢
    rw [hf] at hr ⊢
    rw [fieldsOf_none hf, fieldsOf_none hf]
    exact ⟨hr, rfl⟩
  · have hlen := hr.length
    obtain ⟨header, ho⟩ := hr.some hf
    obtain ⟨header', ho'⟩ := hk.fields f header _ ho
    refine ⟨?_, fieldsOf_some hf ho'⟩
    unfold Names
    rw [hf]
    exact ⟨header', _, ho', hlen⟩

theorem contentOf_cell {h : Heap (Obj α)} {c : Nat} {v : α} (ho : h.obj c = some (.cell v)) :
    contentOf h c = some v := by
  unfold contentOf
  rw [ho]

theorem Keeps.row {h h' : Heap (Obj α)} (hk : Keeps h h') {g : Field} (hg : ∃ v, h.obj g.cell = some (.cell v)) :
    rowOf h' g = rowOf h g := by
  obtain ⟨v, hv⟩ := hg
  rw [rowOf, rowOf, contentOf_cell hv, contentOf_cell (hk.cell _ _ hv)]

theorem Keeps.rows {h h' : Heap (Obj α)} (hk : Keeps h h') (ha : Arrays h) {r r' : RecordValue} (hr : Names h r)
    (hf : fieldsOf h' r' = fieldsOf h r) : rows h' r' = rows h r := by
  rw [Records.rows, Records.rows, hf]
  exact List.map_congr_left (fun g hg => hk.row (ha.cells hr g hg))

/-! ### Arrays stay well formed -/

theorem Stands.of_cells {h h' : Heap (Obj α)} {header : RecordHeader} {fs : List Field} (hs : Stands h header fs)
    (hc : ∀ g ∈ fs, ∀ v, h.obj g.cell = some (.cell v) → ∃ w, h'.obj g.cell = some (.cell w)) :
    Stands h' header fs where
  cells g hg := by
    obtain ⟨v, hv⟩ := hs.cells g hg
    exact hc g hg v hv
  distinct := hs.distinct
  current := hs.current

theorem Arrays.of_obj {h h' : Heap (Obj α)} (ha : Arrays h) (ho : ∀ c, h'.obj c = h.obj c) : Arrays h' := by
  intro f header fs hf
  rw [ho] at hf
  exact (ha f header fs hf).of_cells (fun g _ v hv => ⟨v, by rw [ho, hv]⟩)

theorem alloc_keeps {h : Heap (Obj α)} {R N : List Nat} (he : Exact h R N) (x : Obj α) :
    ∀ c y, h.obj c = some y → (h.alloc x).obj c = some y := by
  intro c y hy
  rw [alloc_obj, if_neg (he.live_lt hy).ne, hy]

theorem Arrays.alloc_cell {h : Heap (Obj α)} {R N : List Nat} (ha : Arrays h) (he : Exact h R N) (v : α) :
    Arrays (h.alloc (.cell v)) := by
  intro f header fs hf
  rw [alloc_obj] at hf
  split_ifs at hf
  · cases hf
  · exact (ha f header fs hf).of_cells (fun g _ w hw => ⟨w, alloc_keeps he _ _ _ hw⟩)

theorem Arrays.alloc_fields {h : Heap (Obj α)} {R N : List Nat} (ha : Arrays h) (he : Exact h R N)
    {header : RecordHeader} {fs : List Field} (hs : Stands h header fs) : Arrays (h.alloc (.fields header fs)) := by
  intro f header' fs' hf
  rw [alloc_obj] at hf
  split_ifs at hf
  · cases hf
    exact hs.of_cells (fun g _ w hw => ⟨w, alloc_keeps he _ _ _ hw⟩)
  · exact (ha f header' fs' hf).of_cells (fun g _ w hw => ⟨w, alloc_keeps he _ _ _ hw⟩)

theorem Arrays.store_fields {h : Heap (Obj α)} (ha : Arrays h) {f : Nat} {header header' : RecordHeader}
    {fs fs' : List Field} (ho : h.obj f = some (.fields header fs)) (hs : Stands h header' fs') :
    Arrays (h.store f (.fields header' fs')) := by
  have hcell : ∀ (g : Field) (v : α), h.obj g.cell = some (.cell v) →
      ∃ w, (h.store f (.fields header' fs')).obj g.cell = some (.cell w) := by
    intro g v hv
    refine ⟨v, ?_⟩
    rw [store_obj, if_neg, hv]
    intro heq
    rw [heq, ho] at hv
    cases hv
  intro e header'' fs'' he
  rw [store_obj] at he
  split_ifs at he
  · rw [ho] at he
    cases he
    exact hs.of_cells (fun g _ v hv => hcell g v hv)
  · exact (ha e header'' fs'' he).of_cells (fun g _ v hv => hcell g v hv)

theorem Arrays.store_cell {h : Heap (Obj α)} (ha : Arrays h) {c : Nat} {w : α} (ho : h.obj c = some (.cell w)) (v : α) :
    Arrays (h.store c (.cell v)) := by
  intro f header fs hf
  rw [store_obj] at hf
  split_ifs at hf
  · rw [ho] at hf
    cases hf
  · refine (ha f header fs hf).of_cells (fun g _ u hu => ?_)
    rw [store_obj]
    split_ifs
    · rw [ho]
      exact ⟨v, rfl⟩
    · exact ⟨u, hu⟩

theorem store_keeps {h : Heap (Obj α)} {f : Nat} {header header' : RecordHeader} {fs : List Field}
    (ho : h.obj f = some (.fields header fs)) : Keeps h (h.store f (.fields header' fs)) where
  cell c v hc := by
    rw [store_obj, if_neg, hc]
    intro heq
    rw [heq, ho] at hc
    cases hc
  fields e header'' fs'' he := by
    rw [store_obj]
    split_ifs with heq
    · rw [heq, ho] at he
      cases he
      exact ⟨header', by rw [ho]; rfl⟩
    · exact ⟨header'', he⟩

theorem store_exact {h : Heap (Obj α)} {R N : List Nat} (he : Exact h R N) {f : Nat} {header header' : RecordHeader}
    {fs : List Field} (ho : h.obj f = some (.fields header fs)) : Exact (h.store f (.fields header' fs)) R N := by
  have h1 := Exact.store (x := Obj.fields header' fs) (R := R) (N := kids (Obj.fields header fs : Obj α) ++ N) ho
    (he.owe _)
  exact h1.pay

end Records
end Gbasic
