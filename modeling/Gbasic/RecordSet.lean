import Gbasic.RecordHeap
import Gbasic.CowExact
/-!
# RecordSet — what a lookup and a set leave

A lookup leaves all but its record's table as it was.  A set writes into a field array that nothing else names: into a
cell that nothing else names, or through a link, or puts a cell of its own in the place of one that is shared; a name
that is not there comes last.
-/
namespace Gbasic
namespace Records

open Cow (Name Field Policy Decl)
open Counted Counted.Heap
open List (count_nil mem_map length_map map_congr_left getElem?_map mem_of_getElem? map_append)

variable {α : Type} {h : Heap (Obj α)} {r : RecordValue} {R : List Nat}

structure Owned (h : Heap (Obj α)) (r : RecordValue) (R : List Nat) : Prop where
  exact : Exact h (r.fields.toList ++ R) []
  arrays : Arrays h
  names : Names h r

theorem alone {f : Nat} (he : Exact h (f :: R) []) (h1 : h.refs f = 1) : f ∉ R := by
  intro hf
  have hc := he.exact f
  have hp := List.count_pos_iff.2 hf
  rw [count_nil, List.count_cons_self] at hc
  omega

/-! ## The index of a longer array -/

theorem nameOf_append {names : List Name} (name : Name) {s : Nat} (hs : s - 1 < names.length) :
    nameOf (names ++ [name]) s = nameOf names s := by
  rw [nameOf, nameOf, List.getElem?_append_left hs]

theorem firstSlots_append (names : List Name) (name : Name) :
    firstSlots (names ++ [name]) names.length = firstSlots names names.length := by
  rw [firstSlots, firstSlots, List.filter_congr]
  intro i hi
  rw [List.mem_range] at hi
  refine decide_eq_decide.2 (forall₂_congr fun j hj => ?_)
  rw [List.getElem?_append_left hi, List.getElem?_append_left (hj.trans hi)]

theorem Table.append {names : List Name} {buckets : List Nat} (h : Table names names.length buckets) (name : Name) :
    Table (names ++ [name]) names.length buckets := by
  refine ⟨h.power, ?_⟩
  rw [firstSlots_append]
  refine h.holds.congr (fun s hs => ?_)
  obtain ⟨i, hi, -, rfl⟩ := mem_firstSlots.1 hs
  exact nameOf_append name (by rwa [Nat.add_sub_cancel])

/-- **The table is kept up with a field that comes last.** -/
theorem indexAppend_spec {header : RecordHeader} {names : List Name} (h : Current header names) (name : Name) :
    ∃ header', indexAppend header (names ++ [name]) names.length = some header' ∧ Current header'
    (names ++ [name]) := by
  have hlen : (names ++ [name]).length = names.length + 1 := List.length_append
  unfold indexAppend
  rcases hb : header.buckets with _ | buckets
  · exact ⟨header, rfl, fun b hb' => by rw [hb] at hb'; cases hb'⟩
  dsimp only
  by_cases hc : header.indexed ≠ names.length ∨ buckets.length < (names.length + 1) * 2
  · rw [if_pos hc]
    obtain ⟨built, hbuild, htable, hsize⟩ := @indexBuild_spec header (names ++ [name]) _ (le_of_eq hlen.symm)
    rw [hbuild]
    refine ⟨_, rfl, fun b hb' _ => ?_⟩
    cases hb'
    rw [hlen]
    exact ⟨htable, hsize⟩
  · rw [if_neg hc]
    rw [not_or, not_not, not_lt] at hc
    obtain ⟨grown, hins, htable, hsize⟩ := ((h buckets hb hc.1).1.append name).insert (by omega) (by omega)
    rw [hins]
    refine ⟨_, rfl, fun b hb' _ => ?_⟩
    cases hb'
    rw [hlen]
    exact ⟨htable, by omega⟩

/-! ## Detaching -/

theorem current_newHeader (capacity : Nat) (names : List Name) : Current (newHeader capacity) names :=
  fun _ hb => by cases hb

theorem recordFieldsAdopt_spec {fs : List Field} (he : Exact h (fs.map Field.cell ++ R) []) (ha : Arrays h)
    (hc : ∀ g ∈ fs, ∃ v, h.obj g.cell = some (.cell v)) (hd : (fs.map Field.cell).Nodup) :
    Owned (recordFieldsAdopt h fs).1 ⟨(recordFieldsAdopt h fs).2, fs.length⟩ R ∧
      (∀ c x, h.obj c = some x → (recordFieldsAdopt h fs).1.obj c = some x) ∧
      fieldsOf (recordFieldsAdopt h fs).1 ⟨(recordFieldsAdopt h fs).2, fs.length⟩ = fs ∧
      ∀ f, (recordFieldsAdopt h fs).2 = some f → (recordFieldsAdopt h fs).1.refs f = 1 := by
  unfold recordFieldsAdopt
  by_cases hn : fs = []
  · subst hn
    exact ⟨⟨he, ha, rfl⟩, fun _ _ hx => hx, rfl, fun f hf => by cases hf⟩
  rw [if_neg hn]
  have hat : (h.alloc (.fields (newHeader fs.length) fs)).obj h.next = some (.fields (newHeader fs.length) fs) := by
    rw [alloc_obj, if_pos rfl]
  refine ⟨⟨he.alloc, ha.alloc_fields he ⟨hc, hd, current_newHeader _ _⟩, ⟨_, fs, hat, rfl⟩⟩, alloc_keeps he _,
    fieldsOf_some rfl hat, fun f hf => ?_⟩
  cases hf
  rw [alloc_refs, if_pos rfl]

/-- **`record_ensure_unique`** leaves a record of an array of its own, with the same fields. -/
theorem recordEnsureUnique_spec (ho : Owned h r R) : ∃ h' r', recordEnsureUnique h r = some (h', r') ∧ Owned h' r' R ∧
    Keeps h h' ∧ fieldsOf h' r' = fieldsOf h r ∧ ∀ f, r'.fields = some f → h'.refs f = 1 := by
  unfold recordEnsureUnique
  rcases hf : r.fields with _ | f
  · exact ⟨h, r, rfl, ho, Keeps.of_obj (fun _ _ hx => hx), rfl, fun f hf' => by rw [hf] at hf'; cases hf'⟩
  obtain ⟨header, hobj⟩ := ho.names.some hf
  dsimp only
  rw [hobj]
  dsimp only
  by_cases h1 : h.refs f = 1
  · rw [if_pos h1]
    refine ⟨h, r, rfl, ho, Keeps.of_obj (fun _ _ hx => hx), rfl, fun e he => ?_⟩
    rw [hf] at he
    cases he
    exact h1
  rw [if_neg h1, List.take_of_length_le ho.names.length.le]
  have hst := ho.arrays f header _ hobj
  have he := ho.exact
  rw [hf] at he
  have hall := he.retainAll ((fieldsOf h r).map Field.cell) (fun a ha => by
    obtain ⟨g, hg, rfl⟩ := mem_map.1 ha
    obtain ⟨v, hv⟩ := hst.cells g hg
    exact ⟨_, hv⟩)
  have hsame : ∀ c, ((h.retainAll ((fieldsOf h r).map Field.cell)).drop f).obj c = h.obj c := by
    intro c
    rw [drop_obj, retainAll_obj]
  have hpos : 0 < (h.retainAll ((fieldsOf h r).map Field.cell)).refs f :=
    lt_of_lt_of_le (he.refs_pos (List.mem_cons_self ..)) (le_retainAll_refs _ _ _)
  have hdrop : Exact ((h.retainAll ((fieldsOf h r).map Field.cell)).drop f) ((fieldsOf h r).map Field.cell ++ R) [] :=
    (hall.perm List.perm_middle).drop (by rw [retainAll_obj, hobj]) hpos
  obtain ⟨hown, hgrow, hfields, hone⟩ := recordFieldsAdopt_spec hdrop (ho.arrays.of_obj hsame)
    (fun g hg => by rw [hsame]; exact hst.cells g hg) hst.distinct
  rw [ho.names.length] at hown hfields
  exact ⟨_, _, rfl, hown, Keeps.of_obj (fun c x hx => hgrow c x (by rw [hsame, hx])), hfields, hone⟩

/-! ## Lookups -/

/-- **`record_find_n` answers the first field of the name.** -/
theorem recordFind_spec (ho : Owned h r R) (name : Name) :
    ∃ h', recordFind h r name = some (h', (fieldsOf h r).findIdx? (fun g => decide (g.name = name))) ∧ Owned h' r R ∧
      Keeps h h' ∧ ∀ a, h'.refs a = h.refs a := by
  unfold recordFind
  rcases hf : r.fields with _ | f
  · rw [fieldsOf_none hf]
    exact ⟨h, rfl, ho, Keeps.of_obj (fun _ _ hx => hx), fun _ => rfl⟩
  obtain ⟨header, hobj⟩ := ho.names.some hf
  have hst := ho.arrays f header _ hobj
  have hlen : ((fieldsOf h r).map Field.name).length = r.count := by rw [length_map, ho.names.length]
  obtain ⟨header', hslot, hcur⟩ := slotOf_eq hst.current name
  rw [hlen] at hslot
  dsimp only
  rw [hobj]
  dsimp only
  rw [hslot]
  dsimp only
  have hk := @store_keeps _ _ _ _ header' _ hobj
  refine ⟨_, ?_, ⟨?_, ho.arrays.store_fields hobj ⟨hst.cells, hst.distinct, hcur⟩, (hk.names ho.names).1⟩, hk,
    fun a => by rw [store_refs]⟩
  · rw [List.findIdx_map, List.findIdx?_eq_guard_findIdx_lt, ho.names.length]
    simp only [Option.guard, decide_eq_true_eq]
    rfl
  · exact store_exact ho.exact hobj

/-! ## Writing a field -/

def rowAfter (h : Heap (Obj α)) (linked : Option Nat) (v : α) (k : Field) : Row α :=
  if linked = some k.cell then { rowOf h k with value := some v } else rowOf h k

def Leaves (h h' : Heap (Obj α)) (R : List Nat) (linked : Option Nat) (v : α) : Prop :=
  ∀ q : RecordValue, (∀ e, q.fields = some e → e ∈ R) → Names h q →
    Names h' q ∧ rows h' q = (fieldsOf h q).map (rowAfter h linked v)

theorem Leaves.after {h0 h h' : Heap (Obj α)} {linked : Option Nat} {v : α} (hk : Keeps h0 h) (ha : Arrays h0)
    (hl : Leaves h h' R linked v) : Leaves h0 h' R linked v := by
  intro q hq hn
  obtain ⟨hn', hf⟩ := hk.names hn
  obtain ⟨hnames, hrows⟩ := hl q hq hn'
  refine ⟨hnames, ?_⟩
  rw [hrows, hf]
  refine map_congr_left (fun g hg => ?_)
  rw [rowAfter, rowAfter, hk.row (ha.cells hn g hg)]

theorem repoint_exact {f i c' : Nat} {N : List Nat} {header : RecordHeader} {fs : List Field} {g k : Field}
    (ho : h.obj f = some (.fields header fs)) (hi : fs[i]? = some g) (hc : k.cell = c') (he : Exact h (c' :: R) N) :
    Exact (h.store f (.fields header (fs.set i k))) (g.cell :: R) N := by
  have h1 := Exact.store (x := Obj.fields header (fs.set i k)) (R := g.cell :: R) (N := fs.map Field.cell ++ N) ho
    (he.congr (fun a => by
      have h2 := Cow.map_set_count (k := k) hi a
      rw [hc] at h2
      simp only [kids_fields, List.count_append, List.count_cons, count_nil] at h2 ⊢
      omega))
  exact h1.pay

theorem map_set {fs : List Field} {i : Nat} {g : Field} {β : Type} (hi : fs[i]? = some g)
    (hd : (fs.map Field.cell).Nodup) (k : Field) {p q : Field → β} (hsame : ∀ e ∈ fs, e.cell ≠ g.cell → p e = q e) :
    (fs.set i k).map p = (fs.map q).set i (p k) := by
  rw [List.map_set]
  refine List.ext_getElem? (fun j => ?_)
  rw [List.getElem?_set, List.getElem?_set, length_map, length_map]
  by_cases hij : i = j
  · rw [if_pos hij, if_pos hij]
  rw [if_neg hij, if_neg hij, getElem?_map, getElem?_map]
  rcases hj : fs[j]? with _ | e
  · rfl
  refine congrArg some (hsame e (mem_of_getElem? hj) (fun heq => hij ?_))
  obtain ⟨hlt, hat⟩ := List.getElem?_eq_some_iff.1 hi
  obtain ⟨hlt', hat'⟩ := List.getElem?_eq_some_iff.1 hj
  refine (@List.Nodup.getElem_inj_iff _ _ hd _ (by rwa [length_map]) _ (by rwa [length_map])).1 ?_
  rw [List.getElem_map, List.getElem_map, hat, hat', heq]

theorem set_self {β : Type} {l : List β} {i : Nat} {x : β} (hi : l[i]? = some x) : l.set i x = l := by
  obtain ⟨hlt, rfl⟩ := List.getElem?_eq_some_iff.1 hi
  exact List.set_getElem_self hlt

theorem leaves_of {h' : Heap (Obj α)} {f : Nat} (hf : f ∉ R) (ha : Arrays h)
    (hc : ∀ c w, h.obj c = some (.cell w) → h'.obj c = some (.cell w))
    (he : ∀ e ≠ f, h'.obj e = h.obj e ∨ h.obj e = none)
    (v : α) : Leaves h h' R none v := by
  intro q hq hn
  have hsame : Names h' q ∧ fieldsOf h' q = fieldsOf h q := by
    rcases hqf : q.fields with _ | e
    · unfold Names at hn ⊢
      rw [hqf] at hn ⊢
      rw [fieldsOf_none hqf, fieldsOf_none hqf]
      exact ⟨hn, rfl⟩
    · obtain ⟨header, hobj⟩ := hn.some hqf
      rcases he e (fun heq => hf (heq ▸ hq e hqf)) with hsame | hdead
      · rw [hobj] at hsame
        refine ⟨?_, fieldsOf_some hqf hsame⟩
        unfold Names
        rw [hqf]
        exact ⟨header, _, hsame, hn.length⟩
      · rw [hobj] at hdead
        cases hdead
  refine ⟨hsame.1, ?_⟩
  rw [rows, hsame.2]
  refine map_congr_left (fun g hg => ?_)
  obtain ⟨w, hw⟩ := ha.cells hn g hg
  rw [rowAfter, if_neg (by simp), rowOf, rowOf, contentOf_cell hw, contentOf_cell (hc _ _ hw)]

section FieldWrite

variable {f i : Nat} {header : RecordHeader} {fs : List Field} {g : Field}

/-- A cell of its own in the place of one that is shared. -/
theorem fieldWrite_fork (ho : Owned h r R) (hf : r.fields = some f) (h1 : h.refs f = 1)
    (hobj : h.obj f = some (.fields header fs)) (hi : fs[i]? = some g) (v : α) (hshared : 1 < h.refs g.cell)
    {h' : Heap (Obj α)}
    (hh : h' = ((h.drop g.cell).alloc (.cell v)).store f (.fields header (fs.set i { g with cell := h.next }))) :
    Owned h' r R ∧ rows h' r = (rows h r).set i ⟨g.name, g.policy, g.reset, some v⟩ ∧ Leaves h h' R none v := by
  have hst := ho.arrays f header fs hobj
  obtain ⟨w, hw⟩ := hst.cells g (mem_of_getElem? hi)
  have he := ho.exact
  rw [hf] at he
  have hdrop : Exact (h.drop g.cell) (f :: R) [g.cell] := (he.owe [g.cell]).drop hw (by omega)
  have halloc := Exact.alloc (x := Obj.cell v) (R := f :: R) (N := [g.cell]) hdrop
  rw [drop_next] at halloc
  have hkeep : ∀ c x, h.obj c = some x → ((h.drop g.cell).alloc (.cell v)).obj c = some x := by
    intro c x hx
    exact alloc_keeps hdrop _ c x (by rw [drop_obj, hx])
  have hnew : ((h.drop g.cell).alloc (.cell v)).obj h.next = some (.cell v) := by
    rw [alloc_obj, drop_next, if_pos rfl]
  have hat : h'.obj f = some (.fields header (fs.set i { g with cell := h.next })) := by
    rw [hh, store_obj, if_pos rfl, hkeep f _ hobj]
    rfl
  have hother : ∀ c x, c ≠ f → ((h.drop g.cell).alloc (.cell v)).obj c = some x → h'.obj c = some x := by
    intro c x hne hx
    rw [hh, store_obj, if_neg hne, hx]
  have hcell : ∀ c u, h.obj c = some (.cell u) → h'.obj c = some (.cell u) := by
    intro c u hu
    refine hother c _ (fun heq => ?_) (hkeep c _ hu)
    rw [heq, hobj] at hu
    cases hu
  have hnewf : h.next ≠ f := (he.live_lt hobj).ne'
  have hnames : (fs.set i { g with cell := h.next }).map Field.name = fs.map Field.name := by
    rw [List.map_set]
    exact set_self (by rw [getElem?_map, hi]; rfl)
  refine ⟨⟨?_, ?_, ?_⟩, ?_, ?_⟩
  · rw [hf, hh]
    exact (repoint_exact (hkeep f _ hobj) hi rfl halloc).pay (l := [g.cell])
  · rw [hh]
    refine Arrays.store_fields ((ho.arrays.of_obj (drop_obj h g.cell)).alloc_cell hdrop v) (hkeep f _ hobj) ⟨?_, ?_, ?_⟩
    · intro e hmem
      rcases List.mem_or_eq_of_mem_set hmem with hmem | rfl
      · obtain ⟨u, hu⟩ := hst.cells e hmem
        exact ⟨u, hkeep _ _ hu⟩
      · exact ⟨v, hnew⟩
    · rw [List.map_set]
      refine hst.distinct.set (fun hmem => ?_)
      obtain ⟨e, hmem, heq⟩ := mem_map.1 hmem
      obtain ⟨u, hu⟩ := hst.cells e hmem
      exact absurd (he.live_lt hu) (not_lt_of_ge (le_of_eq heq.symm))
    · rw [hnames]
      exact hst.current
  · unfold Names
    rw [hf]
    refine ⟨header, _, hat, ?_⟩
    rw [List.length_set, ← fieldsOf_some hf hobj, ho.names.length]
  · rw [rows, fieldsOf_some hf hat, rows, fieldsOf_some hf hobj, map_set hi hst.distinct _ (q := rowOf h)]
    · rw [rowOf, contentOf_cell (hother _ _ hnewf hnew)]
    · intro e hmem _
      obtain ⟨u, hu⟩ := hst.cells e hmem
      rw [rowOf, rowOf, contentOf_cell hu, contentOf_cell (hcell _ _ hu)]
  · refine leaves_of (f := f) (alone he h1) ho.arrays hcell (fun e hne => ?_) v
    rcases hx : h.obj e with _ | x
    · exact Or.inr rfl
    · exact Or.inl (hother e x hne (hkeep e x hx))

/-- A cell that no other record of copies has, or a linked one, written in place. -/
theorem fieldWrite_place (ho : Owned h r R) (hf : r.fields = some f) (h1 : h.refs f = 1)
    (hobj : h.obj f = some (.fields header fs)) (hi : fs[i]? = some g) (v : α)
    (hown : g.policy = .link ∨ h.refs g.cell = 1) :
    Owned (h.store g.cell (.cell v)) r R ∧
      rows (h.store g.cell (.cell v)) r = (rows h r).set i ⟨g.name, g.policy, g.reset, some v⟩ ∧
      Leaves h (h.store g.cell (.cell v)) R (if g.policy = .link then some g.cell else none) v := by
  have hst := ho.arrays f header fs hobj
  have hg := mem_of_getElem? hi
  obtain ⟨w, hw⟩ := hst.cells g hg
  have he := ho.exact
  have hother : ∀ c x, c ≠ g.cell → h.obj c = some x → (h.store g.cell (.cell v)).obj c = some x := by
    intro c x hne hx
    rw [store_obj, if_neg hne, hx]
  have hat : (h.store g.cell (.cell v)).obj g.cell = some (.cell v) := by
    rw [store_obj, if_pos rfl, hw]
    rfl
  have harr : ∀ e header' fs', h.obj e = some (.fields header' fs') →
      (h.store g.cell (.cell v)).obj e = some (.fields header' fs') := by
    intro e header' fs' hx
    refine hother e _ (fun heq => ?_) hx
    rw [heq, hw] at hx
    cases hx
  have hrow : ∀ e ∈ fs, e.cell ≠ g.cell → rowOf (h.store g.cell (.cell v)) e = rowOf h e := by
    intro e hmem hne
    obtain ⟨u, hu⟩ := hst.cells e hmem
    rw [rowOf, rowOf, contentOf_cell hu, contentOf_cell (hother _ _ hne hu)]
  have hsame : ∀ q, Names h q → Names (h.store g.cell (.cell v)) q ∧ fieldsOf (h.store g.cell (.cell v)) q =
      fieldsOf h q := by
    intro q hn
    rcases hqf : q.fields with _ | e
    · unfold Names at hn ⊢
      rw [hqf] at hn ⊢
      rw [fieldsOf_none hqf, fieldsOf_none hqf]
      exact ⟨hn, rfl⟩
    · obtain ⟨header', hobj'⟩ := hn.some hqf
      refine ⟨?_, fieldsOf_some hqf (harr e _ _ hobj')⟩
      unfold Names
      rw [hqf]
      exact ⟨header', _, harr e _ _ hobj', hn.length⟩
  refine ⟨⟨?_, ho.arrays.store_cell hw v, (hsame r ho.names).1⟩, ?_, ?_⟩
  · exact Exact.store (x := Obj.cell v) (R := r.fields.toList ++ R) hw he
  · rw [rows, (hsame r ho.names).2, rows, fieldsOf_some hf hobj]
    conv_lhs => rw [← set_self hi]
    rw [map_set hi hst.distinct g hrow, rowOf, contentOf_cell hat]
  · intro q hq hn
    refine ⟨(hsame q hn).1, ?_⟩
    rw [rows, (hsame q hn).2]
    refine map_congr_left (fun k hk => ?_)
    obtain ⟨u, hu⟩ := ho.arrays.cells hn k hk
    by_cases hkc : k.cell = g.cell
    · have hlink : g.policy = .link := by
        refine hown.resolve_right (fun hone => ?_)
        rw [hf] at he
        rcases hqf : q.fields with _ | e
        · rw [fieldsOf_none hqf] at hk
          cases hk
        · obtain ⟨header', hobj'⟩ := hn.some hqf
          have heq : e = f := he.once_block hone
            ⟨_, hobj', mem_map.2 ⟨k, hk, hkc⟩⟩ ⟨_, hobj, List.mem_map_of_mem hg⟩
          exact alone he h1 (heq ▸ hq e hqf)
      rw [rowAfter, if_pos hlink, if_pos (congrArg some hkc.symm), rowOf, hkc, contentOf_cell hat]
      rfl
    · rw [rowAfter, if_neg, rowOf, rowOf, contentOf_cell hu, contentOf_cell (hother _ _ hkc hu)]
      intro heq
      split_ifs at heq
      exact hkc (Option.some.inj heq).symm

/-- **A write to a field that there is** changes that one, and what is linked to it. -/
theorem fieldWrite_spec (ho : Owned h r R) (hf : r.fields = some f) (h1 : h.refs f = 1)
    (hobj : h.obj f = some (.fields header fs)) (hi : fs[i]? = some g) (v : α) :
    Owned (fieldWrite h f i header fs g v) r R ∧
      rows (fieldWrite h f i header fs g v) r = (rows h r).set i ⟨g.name, g.policy, g.reset, some v⟩ ∧
      Leaves h (fieldWrite h f i header fs g v) R (if g.policy = .link then some g.cell else none) v := by
  unfold fieldWrite
  by_cases hc : g.policy ≠ .link ∧ 1 < h.refs g.cell
  · rw [if_pos hc, if_neg hc.1]
    exact fieldWrite_fork ho hf h1 hobj hi v hc.2 rfl
  · rw [if_neg hc]
    refine fieldWrite_place ho hf h1 hobj hi v ?_
    have hpos := ho.exact.refs_pos_kid hobj (List.mem_map_of_mem (mem_of_getElem? hi))
    rw [not_and, not_lt] at hc
    by_cases hl : g.policy = .link
    · exact Or.inl hl
    · exact Or.inr (le_antisymm (hc hl) hpos)

end FieldWrite

/-! ## Appending -/

/-- **`record_fields_reserve`** leaves a field array that nothing else names, of the same fields. -/
theorem recordFieldsReserve_spec (ho : Owned h r R) (hone : ∀ f, r.fields = some f → h.refs f = 1) (need : Nat) :
    ∃ h' f header, recordFieldsReserve h r.fields need = some (h', f) ∧ Exact h' (f :: R) [] ∧ Arrays h' ∧
      h'.obj f = some (.fields header (fieldsOf h r)) ∧ f ∉ R ∧ Keeps h h' := by
  have he := ho.exact
  unfold recordFieldsReserve
  rcases hf : r.fields with _ | f
  · rw [hf] at he
    have halloc := Exact.alloc (x := (Obj.fields (newHeader (max 4 need)) [] : Obj α)) (R := R) he
    refine ⟨_, _, newHeader (max 4 need), rfl, halloc, ?_, ?_, ?_, Keeps.of_obj (alloc_keeps he _)⟩
    · exact ho.arrays.alloc_fields he ⟨fun g hg => (by cases hg), List.nodup_nil, current_newHeader _ _⟩
    · rw [alloc_obj, if_pos rfl, fieldsOf_none hf]
    · intro hmem
      obtain ⟨x, hx⟩ := he.live_root (c := h.next) hmem
      exact absurd (he.live_lt hx) (lt_irrefl _)
  rw [hf] at he
  obtain ⟨header, hobj⟩ := ho.names.some hf
  have hst := ho.arrays f header _ hobj
  have halone := alone he (hone f hf)
  dsimp only
  rw [hobj]
  dsimp only
  by_cases hcap : need ≤ header.capacity
  · rw [if_pos hcap]
    exact ⟨h, f, header, rfl, he, ho.arrays, hobj, halone, Keeps.of_obj (fun _ _ hx => hx)⟩
  · rw [if_neg hcap]
    refine ⟨_, _, { header with capacity := max (if header.capacity = 0 then 4 else header.capacity * 2) need }, rfl,
      store_exact he hobj, ho.arrays.store_fields hobj ⟨hst.cells, hst.distinct, hst.current⟩, ?_,
      halone, store_keeps hobj⟩
    rw [store_obj, if_pos rfl, hobj]
    rfl

/-- **A name that is not there comes last.** -/
theorem recordAppend_spec (ho : Owned h r R) (hone : ∀ f, r.fields = some f → h.refs f = 1) (name : Name) (v : α) :
    ∃ h' r', recordAppend h r name v = some (h', r') ∧ Owned h' r' R ∧
      rows h' r' = rows h r ++ [⟨name, .copy, none, some v⟩] ∧ Leaves h h' R none v := by
  obtain ⟨h1, f, header, hres, he, ha, hobj, halone, hkeep⟩ := recordFieldsReserve_spec ho hone (r.count + 1)
  have hst := ha f header _ hobj
  obtain ⟨header', hindex, hcur⟩ := indexAppend_spec hst.current name
  have hcount : ((fieldsOf h r).map Field.name).length = r.count := by rw [length_map, ho.names.length]
  rw [hcount] at hindex
  have hmap : ((fieldsOf h r) ++ [(⟨name, .copy, none, h1.next⟩ : Field)]).map Field.name =
      (fieldsOf h r).map Field.name ++ [name] := by rw [map_append]; rfl
  have hgrow := alloc_keeps he (.cell v : Obj α)
  have hnew : (h1.alloc (.cell v)).obj h1.next = some (.cell v) := by rw [alloc_obj, if_pos rfl]
  have hnewf : h1.next ≠ f := (he.live_lt hobj).ne'
  unfold recordAppend
  rw [hres]
  dsimp only
  rw [hobj]
  dsimp only
  rw [hmap, hindex]
  refine ⟨_, _, rfl, ?_⟩
  generalize hh : (h1.alloc (.cell v)).store f
    (.fields header' (fieldsOf h r ++ [⟨name, .copy, none, h1.next⟩])) = h2
  have hat : h2.obj f = some (.fields header' (fieldsOf h r ++ [⟨name, .copy, none, h1.next⟩])) := by
    rw [← hh, store_obj, if_pos rfl, hgrow f _ hobj]
    rfl
  have hother : ∀ c x, c ≠ f → (h1.alloc (.cell v)).obj c = some x → h2.obj c = some x := by
    intro c x hne hx
    rw [← hh, store_obj, if_neg hne, hx]
  have hcell : ∀ c u, h1.obj c = some (.cell u) → h2.obj c = some (.cell u) := by
    intro c u hu
    refine hother c _ (fun heq => ?_) (hgrow c _ hu)
    rw [heq, hobj] at hu
    cases hu
  refine ⟨⟨?_, ?_, ?_⟩, ?_, ?_⟩
  · have halloc := Exact.alloc (x := Obj.cell v) (R := f :: R) he
    have hstore := Exact.store (R := f :: R) (N := (fieldsOf h r).map Field.cell)
      (x := Obj.fields header' (fieldsOf h r ++ [⟨name, .copy, none, h1.next⟩])) (hgrow f _ hobj)
      (halloc.congr (fun a => by
        simp only [kids_fields, map_append, List.map_cons, List.map_nil, List.count_append, List.count_cons,
          count_nil]
        omega))
    rw [hh] at hstore
    exact Exact.pay (l := (fieldsOf h r).map Field.cell) (by rw [List.append_nil]; exact hstore)
  · rw [← hh]
    refine (ha.alloc_cell he v).store_fields (hgrow f _ hobj) ⟨?_, ?_, ?_⟩
    · intro g hg
      rcases List.mem_append.1 hg with hg | hg
      · obtain ⟨u, hu⟩ := hst.cells g hg
        exact ⟨u, hgrow _ _ hu⟩
      · rw [List.mem_singleton] at hg
        subst hg
        exact ⟨v, hnew⟩
    · rw [map_append, List.nodup_append]
      refine ⟨hst.distinct, List.nodup_singleton _, ?_⟩
      rintro a hmem b hb rfl
      obtain ⟨g, hg, rfl⟩ := mem_map.1 hmem
      obtain ⟨u, hu⟩ := hst.cells g hg
      exact absurd (he.live_lt hu) (not_lt_of_ge (le_of_eq (List.mem_singleton.1 hb).symm))
    · rw [hmap]
      exact hcur
  · exact ⟨header', _, hat, by rw [List.length_append, ho.names.length]; rfl⟩
  · rw [rows, fieldsOf_some rfl hat, map_append, rows]
    congr 1
    · refine map_congr_left (fun g hg => ?_)
      obtain ⟨u, hu⟩ := hst.cells g hg
      have hsame := hkeep.row (ho.arrays.cells ho.names g hg)
      rw [← hsame, rowOf, rowOf, contentOf_cell hu, contentOf_cell (hcell _ _ hu)]
    · rw [List.map_singleton, rowOf, contentOf_cell (hother _ _ hnewf hnew)]
  · refine Leaves.after hkeep ho.arrays (leaves_of halone ha hcell (fun e hne => ?_) v)
    rcases hx : h1.obj e with _ | x
    · exact Or.inr rfl
    · exact Or.inl (hother e x hne (hgrow e x hx))

/-! ## Setting -/

def isNamed (name : Name) (g : Field) : Bool := decide (g.name = name)

def linkedCell (h : Heap (Obj α)) (r : RecordValue) (name : Name) : Option Nat :=
  ((fieldsOf h r).find? (isNamed name)).bind (fun g => if g.policy = .link then some g.cell else none)

/-- A list of fields with a name set: the first of the name given the value, or one more at the end. -/
def setRow (l : List (Row α)) (name : Name) (v : α) : List (Row α) :=
  match l.findIdx? (fun row => decide (row.name = name)) with
  | some i => l.modify i (fun row => { row with value := some v })
  | none => l ++ [⟨name, .copy, none, some v⟩]

theorem findIdx_rows (h : Heap (Obj α)) (r : RecordValue) (name : Name) :
    (rows h r).findIdx? (fun row => decide (row.name = name)) = (fieldsOf h r).findIdx? (isNamed name) := by
  rw [rows, List.findIdx?_map]
  rfl

/-- **`record_set_n`** sets the name, and leaves other records what they were, but for the fields linked to this. -/
theorem recordSet_spec (ho : Owned h r R) (name : Name) (v : α) : ∃ h' r', recordSet h r name v = some (h', r') ∧
    Owned h' r' R ∧ rows h' r' = setRow (rows h r) name v ∧ Leaves h h' R (linkedCell h r name) v := by
  obtain ⟨h1, r1, hens, ho1, hk1, hf1, hone1⟩ := recordEnsureUnique_spec ho
  obtain ⟨h2, hfind, ho2, hk2, hrefs⟩ := recordFind_spec ho1 name
  have hf2 : fieldsOf h2 r1 = fieldsOf h r := (hk2.names ho1.names).2.trans hf1
  have hk := hk1.trans hk2
  have hrows := hk.rows ho.arrays ho.names hf2
  rw [hf1] at hfind
  have hfind : recordFind h1 r1 name = some (h2, (fieldsOf h r).findIdx? (isNamed name)) := hfind
  unfold recordSet
  rw [hens]
  dsimp only
  rw [hfind]
  unfold setRow linkedCell
  rw [findIdx_rows]
  rcases hi : (fieldsOf h r).findIdx? (isNamed name) with _ | i
  · have hnone : (fieldsOf h r).find? (isNamed name) = none := by
      rw [List.find?_eq_none]
      rw [List.findIdx?_eq_none_iff] at hi
      exact fun g hg => by rw [hi g hg]; exact Bool.false_ne_true
    obtain ⟨h3, r3, happ, ho3, hr3, hl3⟩ := recordAppend_spec ho2 (fun f hf => by rw [hrefs]; exact hone1 f hf) name v
    rw [hnone]
    refine ⟨h3, r3, happ, ho3, ?_, Leaves.after hk ho.arrays hl3⟩
    rw [hr3, hrows]
  · obtain ⟨hlt, hnamed, hfirst⟩ := List.findIdx?_eq_some_iff_getElem.1 hi
    have hat : (fieldsOf h r)[i]? = some ((fieldsOf h r)[i]) := List.getElem?_eq_getElem hlt
    have hsome : (fieldsOf h r).find? (isNamed name) = some ((fieldsOf h r)[i]) :=
      List.find?_eq_some_iff_getElem.2 ⟨hnamed, i, hlt, rfl, fun j hj => by simpa using hfirst j hj⟩
    rcases hf : r1.fields with _ | f
    · rw [← hf2, fieldsOf_none hf] at hlt
      cases hlt
    obtain ⟨header, hobj⟩ := ho2.names.some hf
    rw [hf2] at hobj
    obtain ⟨ho3, hr3, hl3⟩ := fieldWrite_spec ho2 hf (by rw [hrefs]; exact hone1 f hf) hobj hat v
    rw [hsome]
    dsimp only
    rw [hobj]
    dsimp only
    rw [hat]
    refine ⟨_, _, rfl, ho3, ?_, Leaves.after hk ho.arrays hl3⟩
    rw [hr3, hrows]
    refine List.ext_getElem? (fun j => ?_)
    rw [List.getElem?_set, List.getElem?_modify, rows, length_map, getElem?_map]
    by_cases hij : i = j
    · subst hij
      rw [if_pos rfl, if_pos hlt, hat]
      simp only [Option.map_some, Option.map_eq_map, if_true]
      rfl
    · rw [if_neg hij]
      simp only [if_neg hij, Option.map_eq_map, Option.map_id']

end Records
end Gbasic
