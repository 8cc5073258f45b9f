import Gbasic.RecordSet
/-!
# RecordRun — a record's index answers what its fields say

Any records, built, copied, freed, looked up and set in any order.  What is seen of each is its list of fields: a lookup
answers the first of the name, and a set changes that one or puts one more at the end (`index_answers`).  A write
through a linked field is seen by the copies that have it; no other write is.
-/
namespace Gbasic
namespace Records

open Cow (Name Field Policy Decl)
open Counted Counted.Heap

variable {α : Type}

/-- The variables that hold a record each, over a heap. -/
structure State (α : Type) where
  heap : Heap (Obj α)
  vars : List RecordValue

def State.init : State α := ⟨⟨fun _ => none, 0⟩, []⟩

inductive Op (α : Type) where
  | build (l : List (Decl × α))
  | copy (i : Nat)
  | free (i : Nat)
  | find (i : Nat) (name : Name)
  | set (i : Nat) (name : Name) (v : α)

/-- One operation, none where it touches memory that is gone or does not come to an end.  A variable that is not there
is left so. -/
def State.step (s : State α) : Op α → Option (State α)
  | .build l =>
    let fields := literalFields s.heap l
    let built := valueRecord fields.1 fields.2
    some ⟨built.1, s.vars ++ [built.2]⟩
  | .copy i =>
    match s.vars[i]? with
    | none => some s
    | some r => some ⟨recordFieldsRetain s.heap r, s.vars ++ [r]⟩
  | .free i =>
    match s.vars[i]? with
    | none => some s
    | some r => (recordFree s.heap r).map (fun h => ⟨h, s.vars.eraseIdx i⟩)
  | .find i name =>
    match s.vars[i]? with
    | none => some s
    | some r => (recordFind s.heap r name).map (fun found => ⟨found.1, s.vars⟩)
  | .set i name v =>
    match s.vars[i]? with
    | none => some s
    | some r => (recordSet s.heap r name v).map (fun set => ⟨set.1, s.vars.set i set.2⟩)

def run : State α → List (Op α) → Option (State α)
  | s, [] => some s
  | s, op :: ops =>
    match s.step op with
    | none => none
    | some s => run s ops

def State.views (s : State α) : List (List (Row α)) := s.vars.map (rows s.heap)

variable {s : State α}

/-- What an operation is for, by what is seen. -/
def Does (s s' : State α) : Op α → Prop
  | .build l => s'.views = s.views ++ [l.map (fun d => ⟨d.1.name, d.1.policy, d.1.reset, some d.2⟩)]
  | .copy i => s'.views = s.views ++ (s.views[i]?).toList
  | .free i => s'.views = s.views.eraseIdx i
  | .find _ _ => s'.views = s.views
  | .set i name v =>
    match s.vars[i]? with
    | none => s'.views = s.views
    | some r => s'.views =
        (s.vars.map (fun q => (fieldsOf s.heap q).map (rowAfter s.heap (linkedCell s.heap r name) v))).set i
          (setRow (rows s.heap r) name v)

/-! ## What holds of every state -/

def pointers (vars : List RecordValue) : List Nat := vars.flatMap (fun r => r.fields.toList)

structure Sound (s : State α) : Prop where
  exact : Exact s.heap (pointers s.vars) []
  arrays : Arrays s.heap
  names : ∀ r ∈ s.vars, Names s.heap r

theorem pointers_split {vars : List RecordValue} {i : Nat} {r : RecordValue} (hi : vars[i]? = some r) :
    (pointers vars).Perm (r.fields.toList ++ pointers (vars.eraseIdx i)) := by
  obtain ⟨hlt, rfl⟩ := List.getElem?_eq_some_iff.1 hi
  exact ((List.getElem_cons_eraseIdx_perm hlt).flatMap_right (fun r => r.fields.toList)).symm

theorem pointers_append (vars : List RecordValue) (r : RecordValue) :
    (pointers (vars ++ [r])).Perm (r.fields.toList ++ pointers vars) := by
  rw [pointers, List.flatMap_append, List.flatMap_singleton]
  exact List.perm_append_comm

theorem Sound.owned (hs : Sound s) {i : Nat} {r : RecordValue} (hi : s.vars[i]? = some r) :
    Owned s.heap r (pointers (s.vars.eraseIdx i)) :=
  ⟨hs.exact.perm (pointers_split hi), hs.arrays, hs.names r (List.mem_of_getElem? hi)⟩

theorem mem_pointers {vars : List RecordValue} {q : RecordValue} (hq : q ∈ vars) :
    ∀ e, q.fields = some e → e ∈ pointers vars := by
  intro e he
  exact List.mem_flatMap.2 ⟨q, hq, by rw [he]; exact List.mem_singleton.2 rfl⟩

/-! ## What a step does -/

theorem literalFields_spec : ∀ (l : List (Decl × α)) {h : Heap (Obj α)} {R : List Nat}, Exact h R [] → Arrays h →
    Exact (literalFields h l).1 ((literalFields h l).2.map Field.cell ++ R) [] ∧ Arrays (literalFields h l).1 ∧
      (∀ c x, h.obj c = some x → (literalFields h l).1.obj c = some x) ∧
      (∀ g ∈ (literalFields h l).2, h.next ≤ g.cell ∧ ∃ v, (literalFields h l).1.obj g.cell = some (.cell v)) ∧
      ((literalFields h l).2.map Field.cell).Nodup ∧
      (literalFields h l).2.map (rowOf (literalFields h l).1) =
        l.map (fun d => ⟨d.1.name, d.1.policy, d.1.reset, some d.2⟩)
  | [], h, R, he, ha => ⟨he, ha, fun _ _ hx => hx, fun g hg => (by cases hg), List.nodup_nil, rfl⟩
  | (d, v) :: l, h, R, he, ha => by
    have halloc := Exact.alloc (x := Obj.cell v) (R := R) he
    obtain ⟨hex, harr, hgrow, hcells, hdistinct, hrows⟩ := literalFields_spec l halloc (ha.alloc_cell he v)
    have hat : (literalFields (h.alloc (.cell v)) l).1.obj h.next = some (.cell v) :=
      hgrow _ _ (by rw [alloc_obj, if_pos rfl])
    refine ⟨hex.perm List.perm_middle, harr, fun c x hx => hgrow c x (alloc_keeps he _ c x hx), ?_, ?_, ?_⟩
    · intro g hg
      rcases List.mem_cons.1 hg with rfl | hg
      · exact ⟨le_rfl, v, hat⟩
      · exact ⟨(Nat.le_succ _).trans (hcells g hg).1, (hcells g hg).2⟩
    · refine List.nodup_cons.2 ⟨fun hmem => ?_, hdistinct⟩
      obtain ⟨g, hg, heq⟩ := List.mem_map.1 hmem
      exact absurd (hcells g hg).1 (not_le_of_gt (Nat.lt_succ_of_le (le_of_eq heq)))
    · rw [List.map_cons, ← hrows]
      exact congrArg (· :: _) (congrArg (Row.mk d.name d.policy d.reset) (contentOf_cell hat))

theorem step_build (hs : Sound s) (l : List (Decl × α)) :
    ∃ s', s.step (.build l) = some s' ∧ Sound s' ∧ Does s s' (.build l) := by
  obtain ⟨hex, harr, hgrow, hcells, hdistinct, hrows⟩ := literalFields_spec l hs.exact hs.arrays
  obtain ⟨hown, hgrow', hfields, -⟩ := recordFieldsAdopt_spec hex harr (fun g hg => (hcells g hg).2) hdistinct
  have hk : Keeps s.heap (valueRecord (literalFields s.heap l).1 (literalFields s.heap l).2).1 :=
    Keeps.of_obj (fun c x hx => hgrow' c x (hgrow c x hx))
  refine ⟨_, rfl, ⟨hown.exact.perm (pointers_append _ _).symm, hown.arrays, ?_⟩, ?_⟩
  · intro r hr
    rcases List.mem_append.1 hr with hr | hr
    · exact (hk.names (hs.names r hr)).1
    · rw [List.mem_singleton.1 hr]
      exact hown.names
  · have hold : s.vars.map (rows (valueRecord (literalFields s.heap l).1 (literalFields s.heap l).2).1) =
        s.vars.map (rows s.heap) :=
      List.map_congr_left (fun r hr => hk.rows hs.arrays (hs.names r hr) (hk.names (hs.names r hr)).2)
    have hnew : rows (valueRecord (literalFields s.heap l).1 (literalFields s.heap l).2).1
        (valueRecord (literalFields s.heap l).1 (literalFields s.heap l).2).2 =
        l.map (fun d => ⟨d.1.name, d.1.policy, d.1.reset, some d.2⟩) := by
      rw [← hrows, rows]
      change (fieldsOf (recordFieldsAdopt _ _).1 ⟨(recordFieldsAdopt _ _).2, _⟩).map _ = _
      rw [hfields]
      refine List.map_congr_left (fun g hg => ?_)
      obtain ⟨v, hv⟩ := (hcells g hg).2
      rw [rowOf, rowOf, contentOf_cell hv]
      exact congrArg _ (contentOf_cell (hgrow' _ _ hv))
    exact (List.map_append).trans (congrArg₂ (· ++ ·) hold (congrArg (fun x => [x]) hnew))

theorem step_copy (hs : Sound s) (i : Nat) : ∃ s', s.step (.copy i) = some s' ∧ Sound s' ∧ Does s s' (.copy i) := by
  unfold State.step Does State.views
  dsimp only
  rw [List.getElem?_map]
  rcases hi : s.vars[i]? with _ | r
  · exact ⟨s, rfl, hs, (List.append_nil _).symm⟩
  have hr := List.mem_of_getElem? hi
  have hex := hs.exact.retainAll r.fields.toList (fun a ha => by
    rw [Option.mem_toList] at ha
    exact hs.exact.live_root (mem_pointers hr a ha))
  have hobj : ∀ c, (recordFieldsRetain s.heap r).obj c = s.heap.obj c := fun c => retainAll_obj _ _ c
  have hk : Keeps s.heap (recordFieldsRetain s.heap r) := Keeps.of_obj (fun c x hx => by rw [hobj, hx])
  have hnames : ∀ q ∈ s.vars, Names s.heap q := hs.names
  have hrows : ∀ q ∈ s.vars, rows (recordFieldsRetain s.heap r) q = rows s.heap q :=
    fun q hq => hk.rows hs.arrays (hnames q hq) (hk.names (hnames q hq)).2
  refine ⟨_, rfl, ⟨hex.perm (pointers_append _ _).symm, hs.arrays.of_obj hobj, ?_⟩, ?_⟩
  · intro q hq
    rcases List.mem_append.1 hq with hq | hq
    · exact (hk.names (hnames q hq)).1
    · rw [List.mem_singleton.1 hq]
      exact (hk.names (hnames r hr)).1
  · dsimp only
    rw [List.map_append, List.map_congr_left hrows, List.map_singleton, hrows r hr]
    rfl

theorem step_free (hs : Sound s) (i : Nat) : ∃ s', s.step (.free i) = some s' ∧ Sound s' ∧ Does s s' (.free i) := by
  unfold State.step Does State.views
  dsimp only
  rcases hi : s.vars[i]? with _ | r
  · refine ⟨s, rfl, hs, ?_⟩
    rw [List.eraseIdx_of_length_le (by rw [List.length_map]; exact List.getElem?_eq_none_iff.1 hi)]
  have ho := hs.owned hi
  obtain ⟨h', hfree⟩ := release_some s.heap.weight ho.exact le_rfl
  have hrel : recordFree s.heap r = some h' := hfree
  have hex := Exact.release _ ho.exact hfree
  have hback : ∀ b x, h'.obj b = some x → s.heap.obj b = some x := fun b x hx => release_obj _ hfree hx
  have hcell : ∀ f header fs, h'.obj f = some (.fields header fs) → ∀ g ∈ fs, ∀ v,
      s.heap.obj g.cell = some (.cell v) → h'.obj g.cell = some (.cell v) := by
    intro f header fs hf g hg v hv
    obtain ⟨y, hy⟩ := hex.live_kid hf (List.mem_map_of_mem hg)
    rw [hy, ← hback _ _ hy, hv]
  have hkept : ∀ q ∈ s.vars.eraseIdx i, Names h' q ∧ rows h' q = rows s.heap q := by
    intro q hq
    have hn := hs.names q (List.mem_of_mem_eraseIdx hq)
    rcases hqf : q.fields with _ | f
    · unfold Names at hn ⊢
      rw [hqf] at hn ⊢
      rw [rows, rows, fieldsOf_none hqf, fieldsOf_none hqf]
      exact ⟨hn, rfl⟩
    · obtain ⟨header, hobj⟩ := hn.some hqf
      obtain ⟨x, hx⟩ := hex.live_root (mem_pointers hq f hqf)
      have hsame := hback f x hx
      rw [hobj] at hsame
      cases hsame
      refine ⟨?_, ?_⟩
      · unfold Names
        rw [hqf]
        exact ⟨header, _, hx, hn.length⟩
      · rw [rows, rows, fieldsOf_some hqf hx]
        refine List.map_congr_left (fun g hg => ?_)
        obtain ⟨v, hv⟩ := hs.arrays.cells hn g hg
        rw [rowOf, rowOf, contentOf_cell hv, contentOf_cell (hcell f header _ hx g hg v hv)]
  dsimp only
  rw [hrel]
  refine ⟨_, rfl, ⟨hex, ?_, fun q hq => (hkept q hq).1⟩, ?_⟩
  · intro f header fs hf
    exact (hs.arrays f header fs (hback _ _ hf)).of_cells (fun g hg v hv => ⟨v, hcell f header fs hf g hg v hv⟩)
  · dsimp only
    rw [List.map_congr_left (fun q hq => (hkept q hq).2), List.eraseIdx_map]

theorem step_find (hs : Sound s) (i : Nat) (name : Name) :
    ∃ s', s.step (.find i name) = some s' ∧ Sound s' ∧ Does s s' (.find i name) := by
  unfold State.step Does State.views
  dsimp only
  rcases hi : s.vars[i]? with _ | r
  · exact ⟨s, rfl, hs, rfl⟩
  obtain ⟨h', hfind, ho, hk, -⟩ := recordFind_spec (hs.owned hi) name
  dsimp only
  rw [hfind]
  refine ⟨_, rfl, ⟨ho.exact.perm (pointers_split hi).symm, ho.arrays, fun q hq => (hk.names (hs.names q hq)).1⟩, ?_⟩
  exact List.map_congr_left (fun q hq => hk.rows hs.arrays (hs.names q hq) (hk.names (hs.names q hq)).2)

theorem step_set (hs : Sound s) (i : Nat) (name : Name) (v : α) :
    ∃ s', s.step (.set i name v) = some s' ∧ Sound s' ∧ Does s s' (.set i name v) := by
  unfold State.step Does State.views
  dsimp only
  rcases hi : s.vars[i]? with _ | r
  · exact ⟨s, rfl, hs, rfl⟩
  obtain ⟨h', r', hset, ho, hrows, hleaves⟩ := recordSet_spec (hs.owned hi) name v
  have hlt : i < s.vars.length := (List.getElem?_eq_some_iff.1 hi).1
  have hrest : ∀ q ∈ s.vars.eraseIdx i, Names h' q ∧ rows h' q =
      (fieldsOf s.heap q).map (rowAfter s.heap (linkedCell s.heap r name) v) :=
    fun q hq => hleaves q (mem_pointers hq) (hs.names q (List.mem_of_mem_eraseIdx hq))
  have hat : (s.vars.set i r')[i]? = some r' := List.getElem?_set_self hlt
  dsimp only
  rw [hset]
  refine ⟨_, rfl, ⟨?_, ho.arrays, ?_⟩, ?_⟩
  · refine ho.exact.perm ((pointers_split hat).trans ?_).symm
    rw [List.eraseIdx_set_eq]
  · intro q hq
    rcases List.mem_iff_getElem?.1 hq with ⟨j, hj⟩
    by_cases hij : i = j
    · subst hij
      rw [hat] at hj
      cases hj
      exact ho.names
    · rw [List.getElem?_set_ne hij] at hj
      exact (hrest q (List.mem_eraseIdx_iff_getElem?.2 ⟨j, Ne.symm hij, hj⟩)).1
  · refine List.ext_getElem? (fun j => ?_)
    dsimp only
    rw [List.getElem?_map, List.getElem?_set, List.getElem?_set, List.length_map, List.getElem?_map]
    by_cases hij : i = j
    · rw [if_pos hij, if_pos hij, if_pos hlt, if_pos hlt]
      exact congrArg some hrows
    · rw [if_neg hij, if_neg hij]
      rcases hj : s.vars[j]? with _ | q
      · rfl
      · exact congrArg some (hrest q (List.mem_eraseIdx_iff_getElem?.2 ⟨j, Ne.symm hij, hj⟩)).2

/-- **Every operation comes to an end and does what it is for.** -/
theorem step_spec (hs : Sound s) (op : Op α) : ∃ s', s.step op = some s' ∧ Sound s' ∧ Does s s' op :=
  match op with
  | .build l => step_build hs l
  | .copy i => step_copy hs i
  | .free i => step_free hs i
  | .find i name => step_find hs i name
  | .set i name v => step_set hs i name v

theorem init_sound : Sound (State.init : State α) where
  exact := ⟨fun _ _ => rfl, fun _ => rfl⟩
  arrays _ _ _ hf := by cases hf
  names _ hr := by cases hr

theorem run_sound : ∀ (ops : List (Op α)) {s : State α}, Sound s → ∃ s', run s ops = some s' ∧ Sound s'
  | [], s, hs => ⟨s, rfl, hs⟩
  | op :: ops, s, hs => by
    obtain ⟨next, hstep, hnext, -⟩ := step_spec hs op
    obtain ⟨last, hrun, hlast⟩ := run_sound ops hnext
    refine ⟨last, ?_, hlast⟩
    rw [run, hstep]
    exact hrun

/-- **A record's index answers what its fields say**, after any operations, and all of them come to an end. -/
theorem index_answers (ops : List (Op α)) : ∃ s : State α, run State.init ops = some s ∧
    (∀ op, ∃ s', s.step op = some s' ∧ Does s s' op) ∧
    ∀ (i : Nat) (r : RecordValue) (name : Name), s.vars[i]? = some r → ∃ h, recordFind s.heap r name =
      some (h, (rows s.heap r).findIdx? (fun row => decide (row.name = name))) := by
  obtain ⟨s, hrun, hs⟩ := run_sound ops init_sound
  refine ⟨s, hrun, fun op => ?_, fun i r name hi => ?_⟩
  · obtain ⟨s', hstep, -, hdoes⟩ := step_spec hs op
    exact ⟨s', hstep, hdoes⟩
  · obtain ⟨h, hfind, -⟩ := recordFind_spec (hs.owned hi) name
    rw [findIdx_rows]
    exact ⟨h, hfind⟩

end Records
end Gbasic
