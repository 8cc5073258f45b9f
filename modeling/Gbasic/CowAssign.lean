import Gbasic.CowAcyclic
/-!
# CowAssign — an assignment stores what was assigned

`look` is what is told of a value some levels down: kinds, scalars, items, and fields in their order with their
policies.  What a write changes is not led to from the value that it stores, where it closes no loop, so that the target
reads as the value did.  A value dropped for being equal to the old one leaves the old one, which may be told from it.
-/
namespace Gbasic
namespace Cow

open Counted Counted.Heap
open Option (none_or map_some bind_eq_some_iff bind_eq_bind)
open List (mem_singleton mem_map_of_mem mem_append_left mem_of_getElem? append_nil head?_cons)
open Relation.ReflTransGen (cases_tail cases_head)
open Relation (ReflTransGen TransGen)

variable {α : Type}
variable {h h' : Store α} {v w : Val α} {a f t b a' : Nat} {R : List Nat} {name : Name} {fs : List Field} {y : Found}
  {op : Op α} {g : Field} {r : Option Nat} {same : α → α → Bool} {rest : List (Val α)}

/-! ## Looking at a value -/

inductive Look (α : Type) where
  | deeper
  | null
  | unknown
  | leaf (a : α)
  | array (items : List (Look α))
  | record (fields : List (Name × Policy × Option Nat × Look α))
  | bound (name : α) (context : Look α)

def look : Nat → Store α → Val α → Look α
  | 0, _, _ => .deeper
  | n + 1, h, v =>
    match v with
    | .null => .null
    | .unknown => .unknown
    | .leaf a => .leaf a
    | .array a => .array (((itemsIn h a).getD []).map (look n h))
    | .record f =>
      .record (((fieldsIn h f).getD []).map
        (fun g => (g.name, g.policy, g.reset, look n h ((contentIn h g.cell).getD .null))))
    | .bound a c => .bound a (look n h c)

/-- No look tells a value of one heap from a value of another. -/
def Alike (h : Store α) (v : Val α) (h' : Store α) (v' : Val α) : Prop := ∀ n, look n h v = look n h' v'

theorem Alike.trans {h'' : Store α} {v' v'' : Val α} (h1 : Alike h v h' v') (h2 : Alike h' v' h'' v'') :
    Alike h v h'' v'' := fun n => (h1 n).trans (h2 n)

theorem Alike.symm {v' : Val α} (h1 : Alike h v h' v') : Alike h' v' h v := fun n => (h1 n).symm

/-- What a value leads to is the same in both heaps. -/
def Keeps (h h' : Store α) (v : Val α) : Prop := ∀ t, LeadsTo h v t → h'.obj t = h.obj t

theorem LeadsTo.edge (hl : LeadsTo h v a) (hab : h.Edge a b) : LeadsTo h v b :=
  hl.imp (fun _ ht => ⟨ht.1, ht.2.tail hab⟩)

theorem LeadsTo.item {x : Obj α} (hx : h.obj a = some x) (hw : w ∈ x.items) (hl : LeadsTo h w t) :
    LeadsTo h (.array a) t := by
  obtain ⟨r, hr, hrt⟩ := hl
  exact ⟨a, mem_singleton.mpr rfl, ReflTransGen.head (edge_item hx hw hr) hrt⟩

theorem LeadsTo.field {x : Obj α} (hx : h.obj f = some x) (hg : g ∈ x.fieldList) {y : Obj α}
    (hy : h.obj g.cell = some y) (hl : LeadsTo h y.content t) : LeadsTo h (.record (some f)) t := by
  obtain ⟨r, hr, hrt⟩ := hl
  refine ⟨f, by rw [targets_record]; simp, ReflTransGen.head (edge_field hx hg) ?_⟩
  exact ReflTransGen.head (edge_content hy hr) hrt

theorem look_keeps {h h' : Store α} : ∀ (n : Nat) {v : Val α} (_ : Keeps h h' v), look n h' v = look n h v
  | 0, v, _ => by rw [look, look]
  | n + 1, .null, _ => by rw [look, look]
  | n + 1, .unknown, _ => by rw [look, look]
  | n + 1, .leaf a, _ => by rw [look, look]
  | n + 1, .array a, hk => by
    rw [look, look, itemsIn, itemsIn, hk a ⟨a, mem_singleton.mpr rfl, .refl⟩]
    cases hx : h.obj a with
    | none => rfl
    | some x =>
      refine congrArg Look.array (List.map_congr_left (fun w hw => ?_))
      exact look_keeps n (fun t ht => hk t (LeadsTo.item hx hw ht))
  | n + 1, .record none, _ => by rw [look, look, fieldsIn, fieldsIn]; rfl
  | n + 1, .record (some f), hk => by
    rw [look, look, fieldsIn, fieldsIn, hk f ⟨f, by rw [targets_record]; simp, .refl⟩]
    cases hx : h.obj f with
    | none => rfl
    | some x =>
      refine congrArg Look.record (List.map_congr_left (fun g hg => ?_))
      have hcell : h'.obj g.cell = h.obj g.cell :=
        hk g.cell ⟨f, by rw [targets_record]; simp, .single (edge_field hx hg)⟩
      have hsame : look n h' ((contentIn h' g.cell).getD .null) = look n h ((contentIn h g.cell).getD .null) := by
        rw [contentIn, contentIn, hcell]
        cases hy : h.obj g.cell with
        | none => exact look_keeps n (fun t ht => by obtain ⟨r, hr, _⟩ := ht; cases hr)
        | some y => exact look_keeps n (fun t ht => hk t (LeadsTo.field hx hg hy ht))
      rw [hsame]
  | n + 1, .bound a c, hk => by
    rw [look, look, look_keeps n (v := c) (fun t ht => hk t ht)]

theorem Keeps.alike (hk : Keeps h h' v) : Alike h' v h v := fun n => look_keeps n hk

/-! ## What keeps what a value leads to -/

theorem Keeps.refl (h : Store α) (v : Val α) : Keeps h h v := fun _ _ => rfl

theorem Keeps.leadsTo (hk : Keeps h h' v) (hl : LeadsTo h v t) : LeadsTo h' v t := by
  obtain ⟨r, hr, hrt⟩ := hl
  refine ⟨r, hr, ?_⟩
  induction hrt with
  | refl => exact .refl
  | tail hab hbc ih =>
    obtain ⟨x, hx, hc⟩ := hbc
    exact ih.tail ⟨x, by rw [hk _ ⟨r, hr, hab⟩, hx], hc⟩

theorem Keeps.leadsTo_back (hk : Keeps h h' v) (hl : LeadsTo h' v t) : LeadsTo h v t := by
  obtain ⟨r, hr, hrt⟩ := hl
  refine ⟨r, hr, ?_⟩
  induction hrt with
  | refl => exact .refl
  | tail _ hbc ih =>
    obtain ⟨x, hx, hc⟩ := hbc
    exact ih.tail ⟨x, by rw [← hk _ ⟨r, hr, ih⟩, hx], hc⟩

theorem Keeps.trans {h'' : Store α} (h1 : Keeps h h' v) (h2 : Keeps h' h'' v) : Keeps h h'' v :=
  fun t ht => (h2 t (h1.leadsTo ht)).trans (h1 t ht)

theorem Exact.leadsTo_live (he : Exact h R []) (hv : ∀ t ∈ v.targets, t ∈ R) (hl : LeadsTo h v t) :
    ∃ x, h.obj t = some x := by
  obtain ⟨r, hr, hrt⟩ := hl
  rcases cases_tail hrt with rfl | ⟨e, _, hea⟩
  · exact he.live_root (hv _ hr)
  · exact he.edge_live hea

theorem Keeps.of_builds (he : Exact h R []) (hv : ∀ t ∈ v.targets, t ∈ R) (hb : Builds h h') : Keeps h h' v := by
  intro t ht
  obtain ⟨x, hx⟩ := Exact.leadsTo_live he hv ht
  rw [hb.grows t x hx, hx]

theorem Keeps.of_release {w : List Nat} (hr : h.releaseAll w = some h')
    (hroot : ∀ t ∈ v.targets, ∃ x, h'.obj t = some x)
    (hkid : ∀ a x c, LeadsTo h v a → h'.obj a = some x → c ∈ kids x → ∃ y, h'.obj c = some y) : Keeps h h' v := by
  rintro t ⟨r, hr', hrt⟩
  have hlive : ∃ x, h'.obj t = some x := by
    induction hrt with
    | refl => exact hroot r hr'
    | tail hab hbc ih =>
      obtain ⟨x, hx⟩ := ih
      obtain ⟨y, hy, hc⟩ := hbc
      rw [release_obj _ hr hx] at hy
      cases hy
      exact hkid _ x _ ⟨r, hr', hab⟩ hx hc
  obtain ⟨x, hx⟩ := hlive
  rw [hx, release_obj _ hr hx]

theorem two_le_pointed {N : List Nat} (he : Exact h R N) {c : Nat} {x y : Obj α} (hne : a ≠ b) (hx : h.obj a = some x)
    (hy : h.obj b = some y) : (kids x).count c + (kids y).count c ≤ h.pointed c := by
  have hsum := Finset.sum_le_sum_of_subset (f := fun b => (h.obj b).elim 0 (fun x => (kids x).count c))
    (s := {a, b}) (t := Finset.range h.next) (fun d hd => ?_)
  · rw [Finset.sum_pair hne, hx, hy] at hsum
    exact hsum
  · rcases Finset.mem_insert.mp hd with rfl | hd
    · exact Finset.mem_range.mpr (he.live_lt hx)
    · rw [Finset.mem_singleton.mp hd]
      exact Finset.mem_range.mpr (he.live_lt hy)

theorem Keeps.of_owing {w N : List Nat} {y : Obj α} (he : Exact h (w ++ R) N) (hv : ∀ t ∈ v.targets, t ∈ R)
    (hr : h.releaseAll w = some h') (hf : h'.obj f = some y) (hN : ∀ c, N.count c ≤ (kids y).count c)
    (hl : ¬ LeadsTo h v f) : Keeps h h' v := by
  have he' : Exact h' R N := Exact.release _ he hr
  refine Keeps.of_release hr (fun t ht => obj_of_refs ?_) (fun a x c ha hx hc => obj_of_refs ?_)
  · have h1 := he'.exact t
    have h2 := List.count_pos_iff.mpr (hv t ht)
    have h3 := (hN t).trans (count_le_pointed (he'.live_lt hf) hf)
    omega
  · have hne : a ≠ f := fun haf => hl (haf ▸ ha)
    have h1 := he'.exact c
    have h2 := List.count_pos_iff.mpr hc
    have h3 := two_le_pointed (c := c) he' hne hx hf
    have h4 := hN c
    omega

theorem release_unreached : ∀ (n : Nat) {h h' : Store α} {w : List Nat} {b : Nat} (_ : release n h w = some h')
    (_ : ∀ t ∈ w, ¬ h.Reach t b), h'.obj b = h.obj b
  | n, h, h', [], b, hr, _ => by
    rw [release] at hr
    cases hr
    rfl
  | 0, h, h', _ :: _, b, hr, _ => by
    rw [release] at hr
    cases hr
  | n + 1, h, h', a :: w, b, hr, hb => by
    rw [release] at hr
    have hba : b ≠ a := fun hba => hb a (List.mem_cons_self ..) (hba ▸ .refl)
    split at hr
    · next x hx =>
      have hput : (h.put a none).obj b = h.obj b := by rw [obj_put, if_neg hba]
      rw [release_unreached n hr (fun t ht hrt => ?_), hput]
      have hrt : h.Reach t b := ReflTransGen.mono (fun c d hcd => by
        obtain ⟨z, hz, hd⟩ := hcd
        rw [obj_put] at hz
        split at hz
        · cases hz
        · exact ⟨z, hz, hd⟩) _ _ hrt
      rcases List.mem_append.mp ht with ht | ht
      · exact hb a (List.mem_cons_self ..) (.head ⟨x, obj_of_block hx, ht⟩ hrt)
      · exact hb t (List.mem_cons_of_mem _ ht) hrt
    · next k x hx =>
      rw [release_unreached n hr (fun t ht hrt => ?_), drop_obj]
      refine hb t (List.mem_cons_of_mem _ ht) (ReflTransGen.mono (fun c d hcd => ?_) _ _ hrt)
      obtain ⟨z, hz, hd⟩ := hcd
      exact ⟨z, by rwa [drop_obj] at hz, hd⟩
    · cases hr

theorem Keeps.of_store (ha : ¬ LeadsTo h v a) (x : Obj α) : Keeps h (h.store a x) v := by
  intro t ht
  rw [store_obj, if_neg (fun hta : t = a => ha (hta ▸ ht))]

theorem Keeps.of_put {s s' : State α} {p : Place} (hp : s.put p w = some s')
    (ho : ∀ o, p.owner = some o → ¬ LeadsTo s.heap v o) : Keeps s.heap s'.heap v := by
  cases p with
  | var frame name =>
    cases hp
    exact Keeps.refl _ _
  | item a m i =>
    simp only [State.put] at hp
    split at hp
    · split at hp
      · cases hp
        exact Keeps.of_store (ho a rfl) _
      · cases hp
    · cases hp
  | cell c =>
    simp only [State.put] at hp
    split at hp
    · cases hp
      exact Keeps.of_store (ho c rfl) _
    · cases hp

/-! ## A field set -/

theorem find_of_slotOf {i : Nat} (hs : slotOf fs name = some i) (hg : fs[i]? = some g) :
    fs.find? (fun g => g.name = name) = some g := by
  unfold slotOf at hs
  rw [List.findIdx?_eq_some_iff_getElem] at hs
  obtain ⟨hlt, hname, hbefore⟩ := hs
  rw [List.find?_eq_some_iff_getElem]
  have hgi : fs[i] = g := (List.getElem?_eq_some_iff.mp hg).2
  refine ⟨by rw [← hgi]; exact hname, i, hlt, hgi, fun j hj => ?_⟩
  simpa using hbefore j hj

theorem find_set {name : Name} {k : Field} (hk : k.name = name) : ∀ {fs : List Field} {i : Nat}
    (_ : slotOf fs name = some i), (fs.set i k).find? (fun g => g.name = name) = some k
  | [], i, hs => by cases hs
  | g :: fs, i, hs => by
    unfold slotOf at hs
    rw [List.findIdx?_cons] at hs
    split at hs
    · cases hs
      rw [List.set_cons_zero, List.find?_cons_of_pos (by simpa using hk)]
    · next hg =>
      obtain ⟨j, hj, rfl⟩ := Option.map_eq_some_iff.mp hs
      rw [List.set_cons_succ, List.find?_cons_of_neg (by simpa using hg)]
      exact find_set hk hj

theorem find_append {k : Field} (hs : slotOf fs name = none) (hk : k.name = name) :
    (fs ++ [k]).find? (fun g => g.name = name) = some k := by
  have hnone : fs.find? (fun g => g.name = name) = none := by
    unfold slotOf at hs
    rw [List.findIdx?_eq_none_iff] at hs
    rw [List.find?_eq_none]
    intro g hg
    simpa using hs g hg
  rw [List.find?_append, hnone, none_or, List.find?_cons_of_pos (by simpa using hk)]

theorem cell_unled {x : Val α} (he : Exact h (x.targets ++ R) []) (ho : h.obj f = some (.fields fs)) (hg : g ∈ fs)
    (h1 : h.refs g.cell ≤ 1) (hf : ¬ LeadsTo h x f) : ¬ LeadsTo h x g.cell := by
  rintro ⟨t, ht, htc⟩
  have hedge : h.Edge f g.cell := ⟨_, ho, mem_map_of_mem hg⟩
  have hpos := Exact.refs_pos_kid he ho (mem_map_of_mem hg)
  have hone : h.refs g.cell = 1 := by omega
  rcases cases_tail htc with rfl | ⟨e, hte, hea⟩
  · exact he.once_root hone (mem_append_left _ ht) hedge
  · exact hf ⟨t, ht, he.once_block hone hea hedge ▸ hte⟩

structure FieldHolds (h : Store α) (f : Nat) (name : Name) (x : Val α) : Prop where
  holds : ∃ fs g, h.obj f = some (.fields fs) ∧ fs.find? (fun g => g.name = name) = some g ∧ cellOf h g.cell = some x

theorem attach_holds {fs' : List Field} {x : Val α} (ho : h.obj f = some (.fields fs)) (hlt : f < h.next) {k : Field}
    (hk : k.cell = h.next) (hfind : fs'.find? (fun g => g.name = name) = some k) :
    FieldHolds ((h.alloc (.cell x)).store f (.fields fs')) f name x := by
  refine ⟨fs', k, ?_, hfind, cellOf_some.mpr ?_⟩
  · rw [store_obj, if_pos rfl, alloc_obj, if_neg (by omega), ho, map_some]
  · rw [store_obj, if_neg (by omega), alloc_obj, if_pos hk]

theorem attach_keeps {fs' : List Field} {x y : Val α} (hlive : ∀ t, LeadsTo h y t → ∃ z, h.obj t = some z)
    (hnext : ∀ t z, h.obj t = some z → t < h.next) (hf : ¬ LeadsTo h y f) :
    Keeps h ((h.alloc (.cell x)).store f (.fields fs')) y := by
  intro t ht
  obtain ⟨z, hz⟩ := hlive t ht
  have hlt := hnext t z hz
  rw [store_obj, if_neg (fun htf : t = f => hf (htf ▸ ht)), alloc_obj, if_neg (by omega)]

theorem fieldSet_stores {x : Val α} (he : Exact h (x.targets ++ R) []) (ha : h.Acyclic)
    (ho : h.obj f = some (.fields fs)) (hf : ¬ LeadsTo h x f)
    (hlink : ∀ g, fs.find? (fun g => g.name = name) = some g → g.policy = .link → ¬ LeadsTo h x g.cell)
    (hd : fieldSet h f fs name x = some h') :
    Keeps h h' x ∧ FieldHolds h' f name x ∧ ∀ o, TransGen h.Edge o f → h'.obj o = h.obj o := by
  have hv : ∀ t ∈ x.targets, t ∈ x.targets ++ R := fun t ht => mem_append_left _ ht
  have hlive : ∀ t, LeadsTo h x t → ∃ z, h.obj t = some z := fun t ht => Exact.leadsTo_live he hv ht
  have hfne : ∀ o, TransGen h.Edge o f → o ≠ f := fun o hof hne => ha f (by rwa [hne] at hof)
  have holt : ∀ o, TransGen h.Edge o f → o < h.next := by
    intro o hof
    obtain ⟨c, ⟨y, hy, _⟩, _⟩ := TransGen.head'_iff.mp hof
    exact he.live_lt hy
  unfold fieldSet at hd
  split at hd
  · next i hs =>
    obtain ⟨g, hg, hd⟩ := bind_eq_some_iff.mp hd
    have hmem := mem_of_getElem? hg
    have hfg : h.Edge f g.cell := ⟨_, ho, mem_map_of_mem hmem⟩
    have hname : g.name = name := by simpa using List.find?_some (find_of_slotOf hs hg)
    split at hd
    · -- the cell is shared: the field array is given one of its own
      next hcond =>
      obtain ⟨h1, hr, hd⟩ := bind_eq_some_iff.mp hd
      obtain ⟨fs', hf', hd⟩ := bind_eq_some_iff.mp hd
      cases hd
      have hf' := fieldsOf_some.mp hf'
      have hn := release_next _ hr
      have hlt := he.live_lt ho
      have hsame := release_obj _ hr hf'
      rw [ho] at hsame
      cases hsame
      have hk1 : Keeps h h1 x := by
        refine Keeps.of_owing (he.owe [g.cell]) hv hr hf' (fun c => ?_) hf
        rw [kids_fields, append_nil, List.count_singleton]
        split
        · next hc =>
          rw [beq_iff_eq] at hc
          exact List.count_pos_iff.mpr (hc ▸ mem_map_of_mem hmem)
        · exact Nat.zero_le _
      have hk2 : Keeps h1 ((h1.alloc (.cell x)).store f (.fields (fs.set i { g with cell := h1.next }))) x := by
        refine attach_keeps (fun t ht => ?_) (fun t z hz => ?_) (fun hl => hf (hk1.leadsTo_back hl))
        · obtain ⟨z, hz⟩ := hlive t (hk1.leadsTo_back ht)
          exact ⟨z, by rw [hk1 t (hk1.leadsTo_back ht), hz]⟩
        · rw [hn]
          exact he.live_lt (release_obj _ hr hz)
      refine ⟨hk1.trans hk2, attach_holds (k := { g with cell := h1.next }) hf' (by omega) rfl
        (find_set (k := { g with cell := h1.next }) hname hs), fun o hof => ?_⟩
      have := holt o hof
      rw [store_obj, if_neg (hfne o hof), alloc_obj, if_neg (by omega)]
      refine release_unreached _ hr (fun t ht hto => ?_)
      rw [mem_singleton.mp ht] at hto
      exact ha f (.head' hfg (hto.trans hof.to_reflTransGen))
    · -- the cell is written in its place
      next hcond =>
      obtain ⟨v, hv', hd⟩ := bind_eq_some_iff.mp hd
      obtain ⟨h1, hr, hd⟩ := bind_eq_some_iff.mp hd
      obtain ⟨w, hw, hd⟩ := bind_eq_some_iff.mp hd
      cases hd
      have hcell := cellOf_some.mp hv'
      have hfind := find_of_slotOf hs hg
      have hl : ¬ LeadsTo h x g.cell := by
        by_cases hp : g.policy = .link
        · exact hlink g hfind hp
        · refine cell_unled he ho hmem ?_ hf
          simp only [not_and, Nat.not_lt] at hcond
          exact hcond hp
      have hsame := release_obj _ hr (cellOf_some.mp hw)
      rw [hcell] at hsame
      cases hsame
      have hk1 : Keeps h h1 x := Keeps.of_owing (he.owe v.targets) hv hr (cellOf_some.mp hw)
        (fun c => by rw [append_nil]; exact le_rfl) hl
      have hup : ∀ o, h.Reach o f → h1.obj o = h.obj o := by
        intro o hof
        refine release_unreached _ hr (fun t ht hto => ?_)
        exact ha f (.head' hfg (.head ⟨_, hcell, ht⟩ (hto.trans hof)))
      have hcf : g.cell ≠ f := fun hcf => ha f (.single (by rw [hcf] at hfg; exact hfg))
      refine ⟨hk1.trans (Keeps.of_store (fun hl' => hl (hk1.leadsTo_back hl')) _), ⟨fs, g, ?_, hfind, ?_⟩,
        fun o hof => ?_⟩
      · rw [store_obj, if_neg (Ne.symm hcf), hup f .refl, ho]
      · rw [cellOf_some, store_obj, if_pos rfl, cellOf_some.mp hw, map_some]
      · rw [store_obj, if_neg (fun hoc : o = g.cell => ?_), hup o hof.to_reflTransGen]
        rw [hoc] at hof
        exact ha f (.head hfg hof)
  · next hs =>
    cases hd
    have hlt := he.live_lt ho
    refine ⟨attach_keeps hlive (fun t z hz => he.live_lt hz) hf, attach_holds ho hlt rfl (find_append hs rfl),
      fun o hof => ?_⟩
    have := holt o hof
    rw [store_obj, if_neg (hfne o hof), alloc_obj, if_neg (by omega)]

/-! ## What leads to a place -/

/-- What leads to a block is as it was, and a backing store there has its buffer and its items' number. -/
structure Upheld (s s' : State α) (o : Nat) : Prop where
  symbols : s'.symbols = s.symbols
  above : ∀ b, TransGen s.heap.Edge b o → s'.heap.obj b = s.heap.obj b
  shape : ∀ m c items, s.heap.obj o = some (.store m c items) →
    ∃ c' items', s'.heap.obj o = some (.store m c' items') ∧ items'.length = items.length

theorem Upheld.way {s s' : State α} {o : Nat} (hu : Upheld s s' o) (hb : TransGen s.heap.Edge b o) :
    TransGen s'.heap.Edge b o := by
  induction hb using TransGen.head_induction_on with
  | single hab =>
    obtain ⟨x, hx, hb⟩ := hab
    exact .single ⟨x, by rw [hu.above _ (.single ⟨x, hx, hb⟩), hx], hb⟩
  | head hab hbc ih =>
    obtain ⟨x, hx, hb⟩ := hab
    exact .head ⟨x, by rw [hu.above _ (.head ⟨x, hx, hb⟩ hbc), hx], hb⟩ ih

theorem Upheld.trans {s s' s'' : State α} {o : Nat} (h1 : Upheld s s' o) (h2 : Upheld s' s'' o) : Upheld s s'' o := by
  refine ⟨h2.symbols.trans h1.symbols, fun b hb => (h2.above b (h1.way hb)).trans (h1.above b hb),
    fun m c items ho => ?_⟩
  obtain ⟨c1, items1, ho1, hn1⟩ := h1.shape m c items ho
  obtain ⟨c2, items2, ho2, hn2⟩ := h2.shape m c1 items1 ho1
  exact ⟨c2, items2, ho2, hn2.trans hn1⟩

theorem Upheld.of_obj {s s' : State α} {o : Nat} (hsym : s'.symbols = s.symbols)
    (ho : ∀ b, ReflTransGen s.heap.Edge b o → s'.heap.obj b = s.heap.obj b) : Upheld s s' o :=
  ⟨hsym, fun b hb => ho b hb.to_reflTransGen, fun _ c items h => ⟨c, items, by rw [ho o .refl, h], rfl⟩⟩

theorem Upheld.of_builds {s : State α} {o : Nat} {x : Obj α} (hx : s.heap.obj o = some x) (hb : Builds s.heap h) :
    Upheld s { s with heap := h } o := by
  refine Upheld.of_obj rfl (fun b hbo => ?_)
  rcases cases_head hbo with rfl | ⟨c, ⟨y, hy, _⟩, _⟩
  · rw [hb.grows _ _ hx, hx]
  · rw [hb.grows _ _ hy, hy]

theorem Upheld.of_put {s s' : State α} {p : Place} {o : Nat} (ha : s.heap.Acyclic) (hpo : p.owner = some o)
    (hp : s.put p w = some s') : Upheld s s' o := by
  have hne : ∀ b, TransGen s.heap.Edge b o → b ≠ o := fun b hb hbo => ha o (by rwa [hbo] at hb)
  cases p with
  | var frame name => cases hpo
  | item a m i =>
    cases hpo
    simp only [State.put] at hp
    split at hp
    · next m' c items ho =>
      split at hp
      · cases hp
        refine ⟨rfl, fun b hb => ?_, fun m1 c1 items1 ho1 => ?_⟩
        · rw [store_obj, if_neg (hne b hb)]
        · rw [ho] at ho1
          cases ho1
          exact ⟨c, items.set i w, by rw [store_obj, if_pos rfl, ho, map_some], by rw [List.length_set]⟩
      · cases hp
    · cases hp
  | cell c =>
    cases hpo
    simp only [State.put] at hp
    split at hp
    · next v ho =>
      cases hp
      refine ⟨rfl, fun b hb => ?_, fun m1 c1 items1 ho1 => ?_⟩
      · rw [store_obj, if_neg (hne b hb)]
      · rw [ho] at ho1
        cases ho1
    · cases hp

theorem owner_obj {s : State α} {p : Place} {z : Val α} (hz : s.get p = some z) {o : Nat} (ho : p.owner = some o) :
    ∃ x, s.heap.obj o = some x := by
  cases p with
  | var => cases ho
  | item c m i =>
    cases ho
    simp only [State.get] at hz
    split at hz
    · next hobj => exact ⟨_, hobj⟩
    · cases hz
  | cell c =>
    cases ho
    exact ⟨_, cellOf_some.mp hz⟩

/-! ## A place written -/

section
variable {s s' : State α} {X : List Nat} {p : Place} {x : Val α}

theorem get_same (hsym : s'.symbols = s.symbols) (ho : ∀ o, p.owner = some o → s'.heap.obj o = s.heap.obj o) :
    s'.get p = s.get p := by
  cases p with
  | var frame name => rw [State.get, State.get, hsym]
  | item a m i => rw [State.get, State.get, ho a rfl]
  | cell c => rw [State.get, State.get, cellOf, cellOf, ho c rfl]

theorem detachArray_upheld {o : Nat} (hs : Sound s X) (ha : s.heap.Acyclic) (hz : s.get p = some (.array a))
    (ho : p.owner = some o) (hd : s.detachArray p a = some (s', a')) : Upheld s s' o := by
  obtain ⟨⟨h1, a1⟩, h2, hd⟩ := bind_eq_some_iff.mp hd
  obtain ⟨s1, h3, hd⟩ := bind_eq_some_iff.mp hd
  cases hd
  have hb := arrayEnsureUnique_builds hs h2
  obtain ⟨y, hy⟩ := owner_obj hz ho
  exact (Upheld.of_builds hy hb).trans (Upheld.of_put (acyclic_builds hs ha hb) ho h3)

theorem detachRecord_upheld {r' : Option Nat} {o : Nat} (hs : Sound s X) (ha : s.heap.Acyclic)
    (hz : s.get p = some (.record r)) (ho : p.owner = some o) (hd : s.detachRecord p r = some (s', r')) :
    Upheld s s' o := by
  obtain ⟨⟨h1, r1⟩, h2, hd⟩ := bind_eq_some_iff.mp hd
  obtain ⟨s1, h3, hd⟩ := bind_eq_some_iff.mp hd
  cases hd
  have hb := recordEnsureUnique_builds hs h2
  obtain ⟨y, hy⟩ := owner_obj hz ho
  exact (Upheld.of_builds hy hb).trans (Upheld.of_put (acyclic_builds hs ha hb) ho h3)

theorem detach_keeps (hs : Sound s (x.targets ++ X)) (hb : Builds s.heap h)
    (hp : ∀ o, p.owner = some o → ¬ LeadsTo s.heap x o) (hd : ({ s with heap := h } : State α).put p w = some s') :
    Keeps s.heap s'.heap x := by
  have hk : Keeps s.heap h x := Keeps.of_builds hs (fun t ht => mem_append_left _ (mem_append_left _ ht)) hb
  exact hk.trans (Keeps.of_put hd (fun o ho hl => hp o ho (hk.leadsTo_back hl)))

theorem detachArray_keeps (hs : Sound s (x.targets ++ X)) (hp : ∀ o, p.owner = some o → ¬ LeadsTo s.heap x o)
    (hd : s.detachArray p a = some (s', a')) : Keeps s.heap s'.heap x := by
  obtain ⟨⟨h1, a1⟩, h2, hd⟩ := bind_eq_some_iff.mp hd
  obtain ⟨s1, h3, hd⟩ := bind_eq_some_iff.mp hd
  cases hd
  exact detach_keeps hs (arrayEnsureUnique_builds hs h2) hp h3

theorem detachRecord_keeps {r' : Option Nat} (hs : Sound s (x.targets ++ X))
    (hp : ∀ o, p.owner = some o → ¬ LeadsTo s.heap x o) (hd : s.detachRecord p r = some (s', r')) :
    Keeps s.heap s'.heap x := by
  obtain ⟨⟨h1, r1⟩, h2, hd⟩ := bind_eq_some_iff.mp hd
  obtain ⟨s1, h3, hd⟩ := bind_eq_some_iff.mp hd
  cases hd
  exact detach_keeps hs (recordEnsureUnique_builds hs h2) hp h3

theorem detached_unled {z : Val α} (hs : Sound s (x.targets ++ X)) (hz : s.get p = some z) (hza : a ∈ z.targets)
    (hone : s.heap.refs a = 1) (hp : ∀ o, p.owner = some o → ¬ LeadsTo s.heap x o) : ¬ LeadsTo s.heap x a := by
  rintro ⟨t, ht, hta⟩
  obtain ⟨o, ho, hto⟩ := hs.leads_to hz hza hone (mem_append_left _ ht) hta
  exact hp o ho ⟨t, ht, hto⟩

theorem recordSet_stores (hs : Sound s (x.targets ++ X)) (ha : s.heap.Acyclic) (hz : s.get p = some (.record r))
    (hfs : fieldsOf s.heap r = some fs) (hp : ∀ o, p.owner = some o → ¬ LeadsTo s.heap x o)
    (hlink : ∀ g, fs.find? (fun g => g.name = name) = some g → g.policy = .link → ¬ LeadsTo s.heap x g.cell)
    (hd : s.recordSet p r name x = some s') :
    Keeps s.heap s'.heap x ∧ (∃ f, s'.get p = some (.record (some f)) ∧ FieldHolds s'.heap f name x) ∧
      ∀ o, p.owner = some o → Upheld s s' o := by
  obtain ⟨⟨s1, r1⟩, h1, hd⟩ := bind_eq_some_iff.mp hd
  have hs1 := detachRecord_sound hs hz h1
  have hk1 := detachRecord_keeps hs hp h1
  have hp1 : ∀ o, p.owner = some o → ¬ LeadsTo s1.heap x o := fun o ho hl => hp o ho (hk1.leadsTo_back hl)
  have e1 : Exact s1.heap (x.targets ++ (X ++ s1.roots)) [] := by
    rw [← List.append_assoc]
    exact hs1
  cases r with
  | none =>
    obtain ⟨rfl, hst, hz1, hn⟩ := detachRecord_none hz h1
    have e2 : Exact (s1.heap.alloc (.cell x)) _ [] := Exact.alloc (x := Obj.cell x) e1
    have hb := (Builds.alloc (x := Obj.cell x) e1).trans
      (Builds.alloc (x := Obj.fields [⟨name, .copy, none, s1.heap.next⟩]) e2)
    refine ⟨hk1.trans (detach_keeps hs1 hb hp1 hd), ⟨_, get_put (get_builds hb hz1) hd,
      [⟨name, .copy, none, s1.heap.next⟩], _, put_fields hd ?_, List.find?_cons_of_pos (by simp), ?_⟩, fun o ho => ?_⟩
    · rw [alloc_obj, alloc_next, if_pos rfl]
    · have hsame : Keeps ((s1.heap.alloc (.cell x)).alloc (.fields [⟨name, .copy, none, s1.heap.next⟩])) s'.heap
          (.array s1.heap.next) := by
        refine Keeps.of_put hd (fun o ho hl => ?_)
        have holt := owner_lt hs1 hz1 ho
        obtain ⟨t, ht, hto⟩ := hl
        rw [mem_singleton.mp ht] at hto
        rcases cases_head hto with hto | ⟨c, ⟨y, hy, hc⟩, hco⟩
        · omega
        · rw [alloc_obj, alloc_next, if_neg (by omega), alloc_obj, if_pos rfl] at hy
          cases hy
          have hkb : Keeps s1.heap _ x := Keeps.of_builds e1 (fun t ht => mem_append_left _ ht) hb
          exact hp1 o ho (hkb.leadsTo_back ⟨c, hc, hco⟩)
      rw [cellOf_some, hsame _ ⟨_, mem_singleton.mpr rfl, .refl⟩, alloc_obj, alloc_next, if_neg (by omega), alloc_obj,
        if_pos rfl]
    · obtain ⟨y, hy⟩ := owner_obj hz1 ho
      exact (detachRecord_upheld hs ha hz ho h1).trans ((Upheld.of_builds hy hb).trans
        (Upheld.of_put (acyclic_builds hs1 (hst.acyclic ha) hb) ho hd))
  | some f =>
    obtain ⟨f1, rfl, hst, hone, hz1, ho1⟩ := detachRecord_stands hs (fieldsOf_some.mp hfs) hz h1
    obtain ⟨fs1, hf1, hd⟩ := bind_eq_some_iff.mp hd
    obtain ⟨h2, hset, hd⟩ := bind_eq_some_iff.mp hd
    cases hd
    have hsame : fs1 = fs := by
      have := (fieldsOf_some.mp hf1).symm.trans ho1
      simpa using this
    subst hsame
    have hmem : f1 ∈ (Val.record (some f1) : Val α).targets := by rw [targets_record]; simp
    obtain ⟨hk2, hholds, hup⟩ := fieldSet_stores e1 (hst.acyclic ha) ho1 (detached_unled hs1 hz1 hmem hone hp1)
      (fun g hg hl hlt => hlink g hg hl (hk1.leadsTo_back hlt)) hset
    refine ⟨hk1.trans hk2, ⟨f1, ?_, hholds⟩, fun o ho => ?_⟩
    · rw [← hz1]
      exact get_same rfl (fun o ho => hup o (.single (edge_get hz1 ho hmem)))
    · exact (detachRecord_upheld hs ha hz ho h1).trans (Upheld.of_obj rfl
        (fun b hb => hup b (.tail' hb (edge_get hz1 ho hmem))))

theorem detachArray_items {items : List (Val α)} (hs : Sound s X) (ha : s.heap.Acyclic)
    (hz : s.get p = some (.array a)) (hi : itemsOf s.heap a = some items) (hd : s.detachArray p a = some (s', a')) :
    itemsOf s'.heap a' = some items := by
  obtain ⟨hst, _, hz', _⟩ := detachArray_stands hs hz hd
  have hac := hst.acyclic ha
  obtain ⟨⟨h1, a1⟩, h2, hd⟩ := bind_eq_some_iff.mp hd
  obtain ⟨s1, h3, hd⟩ := bind_eq_some_iff.mp hd
  cases hd
  obtain ⟨m, c, hobj⟩ := itemsOf_some hi
  have hnew : ∃ m c, h1.obj a' = some (.store m c items) := by
    simp only [arrayEnsureUnique, hobj] at h2
    split at h2
    · cases h2
      exact ⟨m, c, hobj⟩
    · cases h2
      exact ⟨0, items.length, by rw [drop_obj, alloc_obj, if_pos rfl]⟩
  obtain ⟨m1, c1, hnew⟩ := hnew
  have hne : ∀ o, p.owner = some o → a' ≠ o := by
    intro o ho hao
    have hedge := edge_get hz' ho (mem_singleton.mpr (rfl : a' = a'))
    exact hac a' (.single (by rwa [← hao] at hedge))
  have hsame : s'.heap.obj a' = some (.store m1 c1 items) := by
    cases p with
    | var frame name =>
      cases h3
      exact hnew
    | item b m i =>
      simp only [State.put] at h3
      split at h3
      · split at h3
        · cases h3
          rw [store_obj, if_neg (hne b rfl), hnew]
        · cases h3
      · cases h3
    | cell b =>
      simp only [State.put] at h3
      split at h3
      · cases h3
        rw [store_obj, if_neg (hne b rfl), hnew]
      · cases h3
  rw [itemsOf, hsame]

theorem storeSet_stores {k : Nat} (he : Exact h (x.targets ++ R) []) (ha : h.Acyclic) (hl : ¬ LeadsTo h x a)
    (hd : storeSet h a k x = some h') :
    Keeps h h' x ∧ (∃ l items, itemsOf h a = some l ∧ itemsOf h' a = some items ∧ items.length = l.length ∧
      items[k]? = some x) ∧ ∀ o, TransGen h.Edge o a → h'.obj o = h.obj o := by
  unfold storeSet storeEdit at hd
  obtain ⟨items, hi, hd⟩ := bind_eq_some_iff.mp hd
  obtain ⟨v, hv, hd⟩ := bind_eq_some_iff.mp hd
  obtain ⟨h1, hr, hd⟩ := bind_eq_some_iff.mp hd
  split at hd
  · next moves capacity items' ho =>
    cases hd
    have hsame := release_obj _ hr ho
    have hitems : items' = items := by
      obtain ⟨m, c, ho'⟩ := itemsOf_some hi
      rw [ho'] at hsame
      cases hsame
      rfl
    subst hitems
    have hk1 : Keeps h h1 x := by
      refine Keeps.of_owing (he.owe v.targets) (fun t ht => mem_append_left _ ht) hr ho (fun c => ?_) hl
      rw [append_nil, kids_store, List.count_flatMap]
      exact List.single_le_sum (fun _ _ => Nat.zero_le _) _ (mem_map_of_mem (mem_of_getElem? hv))
    refine ⟨hk1.trans (Keeps.of_store (fun hl' => hl (hk1.leadsTo_back hl')) _),
      ⟨items', items'.set k x, hi, ?_, List.length_set, ?_⟩, fun o hoa => ?_⟩
    · rw [itemsOf, store_obj, if_pos rfl, ho, map_some]
    · rw [List.getElem?_set_self (List.getElem?_eq_some_iff.mp hv).1]
    · rw [store_obj, if_neg (fun hne : o = a => ha a (by rwa [hne] at hoa))]
      refine release_unreached _ hr (fun t ht hto => ha a (.head' ⟨_, hsame, ?_⟩ (hto.trans hoa.to_reflTransGen)))
      exact List.mem_flatMap.mpr ⟨v, mem_of_getElem? hv, ht⟩
  · cases hd

end

/-! ## A path walked again -/

theorem walkStep_way {s : State α} {x : Found} {t : PathStep} (hw : s.walkStep x t = some y) :
    ∃ z a o, s.get x.place = some z ∧ a ∈ z.targets ∧ y.place.owner = some o ∧ s.heap.Reach a o := by
  cases t with
  | field name =>
    obtain ⟨z, hz, hw⟩ := bind_eq_some_iff.mp hw
    split at hw
    · next f =>
      obtain ⟨fs, hfs, hw⟩ := bind_eq_some_iff.mp hw
      obtain ⟨g, hg, hw⟩ := bind_eq_some_iff.mp hw
      have hedge : s.heap.Edge f g.cell :=
        ⟨_, fieldsOf_some.mp hfs, mem_map_of_mem (List.mem_of_find?_eq_some hg)⟩
      refine ⟨_, f, g.cell, hz, by rw [targets_record]; simp, ?_, .single hedge⟩
      split at hw
      · cases hw
        rfl
      · cases hw
        rfl
    · cases hw
  | index i =>
    obtain ⟨z, hz, hw⟩ := bind_eq_some_iff.mp hw
    split at hw
    · next a =>
      split at hw
      · obtain ⟨k, hk, hw⟩ := bind_eq_some_iff.mp hw
        cases hw
        exact ⟨_, a, a, hz, mem_singleton.mpr rfl, rfl, .refl⟩
      · cases hw
    · cases hw

theorem walk_owner {s : State α} : ∀ {path : List PathStep} {x y : Found} (_ : path ≠ []) (_ : s.walk x path = some y),
    ∃ o, y.place.owner = some o
  | [], x, y, hne, _ => absurd rfl hne
  | [t], x, y, _, hw => by
    obtain ⟨x1, hx1, hw⟩ := bind_eq_some_iff.mp hw
    cases hw
    obtain ⟨_, _, o, _, _, ho, _⟩ := walkStep_way hx1
    exact ⟨o, ho⟩
  | t :: t' :: path, x, y, _, hw => by
    obtain ⟨x1, hx1, hw⟩ := bind_eq_some_iff.mp hw
    exact walk_owner (List.cons_ne_nil _ _) hw

theorem walk_way {s : State α} {o : Nat} : ∀ (path : List PathStep) {x y : Found} (_ : s.walk x path = some y)
    (_ : y.place.owner = some o) {o1 : Nat} (_ : x.place.owner = some o1), s.heap.Reach o1 o
  | [], x, y, hw, ho, o1, h1 => by
    cases hw
    rw [ho] at h1
    cases h1
    exact .refl
  | t :: path, x, y, hw, ho, o1, h1 => by
    obtain ⟨x1, hx1, hw⟩ := bind_eq_some_iff.mp hw
    obtain ⟨z, a, o2, hz, ha, ho2, hao⟩ := walkStep_way hx1
    exact .head (edge_get hz h1 ha) (hao.trans (walk_way path hw ho ho2))

section
variable {s s' : State α} {z0 : Val α} {o : Nat}

structure Led (s s' : State α) (z0 : Val α) (o : Nat) : Prop where
  symbols : s'.symbols = s.symbols
  above : ∀ b, LeadsTo s.heap z0 b → TransGen s.heap.Edge b o → s'.heap.obj b = s.heap.obj b
  shape : ∀ m c items, s.heap.obj o = some (.store m c items) →
    ∃ c' items', s'.heap.obj o = some (.store m c' items') ∧ items'.length = items.length

structure Inside (s : State α) (z0 : Val α) (p : Place) : Prop where
  owner : ∀ o1, p.owner = some o1 → LeadsTo s.heap z0 o1
  holds : ∀ z, s.get p = some z → ∀ r ∈ z.targets, LeadsTo s.heap z0 r

theorem Inside.var {frame : Nat} (hz : s.get (.var frame name) = some z0) : Inside s z0 (.var frame name) := by
  refine ⟨fun o1 h1 => (by cases h1), fun z hz' r hr => ?_⟩
  rw [hz] at hz'
  cases hz'
  exact ⟨r, hr, .refl⟩

theorem Inside.step {x : Found} {t : PathStep} (hx : Inside s z0 x.place) (hw : s.walkStep x t = some y) :
    Inside s z0 y.place := by
  obtain ⟨z, a, o1, hz, ha, ho1, hao⟩ := walkStep_way hw
  obtain ⟨r, hr, hra⟩ := hx.holds z hz a ha
  have hled : LeadsTo s.heap z0 o1 := ⟨r, hr, hra.trans hao⟩
  refine ⟨fun o2 h2 => ?_, fun w hw r hr => hled.edge (edge_get hw ho1 hr)⟩
  rw [ho1] at h2
  cases h2
  exact hled

theorem Inside.walk : ∀ (path : List PathStep) {x y : Found} (_ : Inside s z0 x.place) (_ : s.walk x path = some y),
    Inside s z0 y.place
  | [], x, y, hx, hw => by
    cases hw
    exact hx
  | t :: path, x, y, hx, hw => by
    obtain ⟨x1, hx1, hw⟩ := bind_eq_some_iff.mp hw
    exact Inside.walk path (hx.step hx1) hw

theorem Led.get (hl : Led s s' z0 o) {p : Place} (hp : ∀ o1, p.owner = some o1 → LeadsTo s.heap z0 o1)
    (hw : ∀ o1, p.owner = some o1 → TransGen s.heap.Edge o1 o) : s'.get p = s.get p :=
  get_same hl.symbols (fun o1 h1 => hl.above o1 (hp o1 h1) (hw o1 h1))

theorem walkStep_led (hl : Led s s' z0 o) {x x' : Found} {t : PathStep} (hxx : x'.place = x.place)
    (hx : Inside s z0 x.place) (hw : s.walkStep x t = some y)
    (hyo : ∀ o1, y.place.owner = some o1 → s.heap.Reach o1 o) :
    ∃ y', s'.walkStep x' t = some y' ∧ y'.place = y.place := by
  obtain ⟨z, a, o1, hza, ha, ho1, hao⟩ := walkStep_way hw
  have hget : s'.get x'.place = some z := by
    rw [hxx, hl.get hx.owner (fun o2 h2 => .head' (edge_get hza h2 ha) (hao.trans (hyo o1 ho1))), hza]
  cases t with
  | field name =>
    obtain ⟨z', hz', hw⟩ := bind_eq_some_iff.mp hw
    rw [hza] at hz'
    cases hz'
    split at hw
    · next f =>
      obtain ⟨fs, hfs, hw⟩ := bind_eq_some_iff.mp hw
      obtain ⟨g, hg, hw⟩ := bind_eq_some_iff.mp hw
      have hedge : s.heap.Edge f g.cell :=
        ⟨_, fieldsOf_some.mp hfs, mem_map_of_mem (List.mem_of_find?_eq_some hg)⟩
      have hplace : y.place = .cell g.cell := by
        split at hw
        · cases hw
          rfl
        · cases hw
          rfl
      have hfo : TransGen s.heap.Edge f o := .head' hedge (hyo g.cell (by rw [hplace]; rfl))
      have hfs' : fieldsOf s'.heap (some f) = some fs := by
        rw [fieldsOf_some, hl.above f (hx.holds _ hza f (by rw [targets_record]; simp)) hfo]
        exact fieldsOf_some.mp hfs
      simp only [State.walkStep, hget, hfs', hg, bind_eq_bind, Option.bind_some]
      split
      · exact ⟨_, rfl, hplace.symm⟩
      · exact ⟨_, rfl, hplace.symm⟩
    · cases hw
  | index i =>
    obtain ⟨z', hz', hw⟩ := bind_eq_some_iff.mp hw
    rw [hza] at hz'
    cases hz'
    split at hw
    · next b =>
      split at hw
      · next m c items hb =>
        obtain ⟨k, hk, hw⟩ := bind_eq_some_iff.mp hw
        cases hw
        obtain ⟨c', items', hb', hn⟩ : ∃ c' items', s'.heap.obj b = some (.store m c' items') ∧
            items'.length = items.length := by
          rcases cases_head (hyo b rfl) with hbo | ⟨d, hbd, hdo⟩
          · exact hbo ▸ hl.shape m c items (hbo ▸ hb)
          · exact ⟨c, items, by rw [hl.above b (hx.holds _ hza b (mem_singleton.mpr rfl)) (.head' hbd hdo), hb], rfl⟩
        simp only [State.walkStep, hget, hb', hn, hk, bind_eq_bind, Option.bind_some]
        exact ⟨_, rfl, rfl⟩
      · cases hw
    · cases hw

theorem walk_led (hl : Led s s' z0 o) : ∀ (path : List PathStep) {x x' y : Found} (_ : x'.place = x.place)
    (_ : Inside s z0 x.place) (_ : s.walk x path = some y) (_ : ∀ o1, y.place.owner = some o1 → o1 = o),
    ∃ y', s'.walk x' path = some y' ∧ y'.place = y.place
  | [], x, x', y, hxx, _, hw, _ => by
    cases hw
    exact ⟨x', rfl, hxx⟩
  | t :: path, x, x', y, hxx, hx, hw, ho => by
    obtain ⟨x1, hx1, hw⟩ := bind_eq_some_iff.mp hw
    obtain ⟨z, a, o1, hza, ha, ho1, hao⟩ := walkStep_way hx1
    have hyo : y.place.owner = some o := by
      cases path with
      | nil =>
        cases hw
        rw [ho1, ho o1 ho1]
      | cons t path =>
        obtain ⟨o2, h2⟩ := walk_owner (by simp) hw
        rw [h2, ho o2 h2]
    obtain ⟨x1', hx1', hplace⟩ := walkStep_led hl hxx hx hx1 (fun o2 h2 => walk_way path hw hyo h2)
    obtain ⟨y', hy', hy⟩ := walk_led hl path hplace (hx.step hx1) hw ho
    refine ⟨y', ?_, hy⟩
    rw [State.walk, hx1']
    exact hy'

end

/-! ## `assign_lvalue` -/

inductive Assigned where
  | error | unchanged | changed
  deriving DecidableEq

namespace State

/-- What `assign_lvalue` answers. -/
def assigned (same : α → α → Bool) (s : State α) (op : Op α) : Option Assigned :=
  match op, s.held, s.hand with
  | .assign name, _, v :: _ => do some (if ← s.sameSymbol same name v then .unchanged else .changed)
  | .assignThis, _, _ :: _ => some .error
  | .setField name, b :: _, v :: _ => do
    match ← s.get b.place with
    | .record r => do some (if ← s.sameField same r name v then .unchanged else .changed)
    | _ => some .error
  | .setIndex i, b :: _, v :: _ => do
    match ← s.get b.place with
    | .array a => do
      let items ← itemsOf s.heap a
      match itemAt items.length i with
      | none => some .error
      | some k => do some (if ← s.sameItem same items k v then .unchanged else .changed)
    | _ => some .error
  | _, _, _ => none

def readAt (s : State α) (p : Place) : Op α → Option (Val α)
  | .setField name => do
    match ← s.get p with
    | .record r => do cellOf s.heap (← (← fieldsOf s.heap r).find? (fun g => g.name = name)).cell
    | _ => none
  | .setIndex i => do
    match ← s.get p with
    | .array a => do
      let items ← itemsOf s.heap a
      items[← itemAt items.length i]?
    | _ => none
  | _ => none

def reads (s : State α) (op : Op α) (b : Option Borrow) : Option (Val α) :=
  match op, b with
  | .assign name, _ => findInFrame s.symbols s.depth name
  | op, some b => do s.readAt (← s.found b).place op
  | _, none => none

/-- The path of a target still leads where it was resolved, which the expressions of its indices may change. -/
def Resolved (s : State α) (op : Op α) : Prop :=
  (∃ name, op = .assign name) ∨ ∃ b bs y, s.held = b :: bs ∧ s.found b = some y ∧ y.place = b.place

/-- The target holds a value that the comparison finds equal to the new one, and that is told from it. -/
def Drops (same : α → α → Bool) (s : State α) (op : Op α) (v : Val α) : Prop :=
  ∃ w, s.reads op s.held.head? = some w ∧ valueStorageEqual same (calls s.heap) s.heap w v = some true ∧
    ¬ Alike s.heap w s.heap v

end State

/-- After an assignment the target reads as the value did before it. -/
def Stored (s s' : State α) (op : Op α) (v : Val α) : Prop :=
  ∃ w, s'.reads op s.held.head? = some w ∧ Alike s'.heap w s.heap v

/-! ## The value dropped -/

theorem readAt_keeps {s s' : State α} {p : Place} (hget : s'.get p = s.get p)
    (hk : ∀ z, s.get p = some z → Keeps s.heap s'.heap z) (hw : s.readAt p op = some w) :
    s'.readAt p op = some w ∧ Alike s'.heap w s.heap w := by
  cases op with
  | setField name =>
    obtain ⟨z, hz, hw⟩ := bind_eq_some_iff.mp hw
    split at hw
    · next r =>
      obtain ⟨fs, hfs, hw⟩ := bind_eq_some_iff.mp hw
      obtain ⟨g, hg, hcell⟩ := bind_eq_some_iff.mp hw
      cases r with
      | none =>
        cases hfs
        cases hg
      | some f =>
        have hkz := hk _ hz
        have hf : LeadsTo s.heap (.record (some f)) f := ⟨f, by rw [targets_record]; simp, .refl⟩
        have hc : LeadsTo s.heap (.record (some f)) g.cell :=
          hf.edge ⟨_, fieldsOf_some.mp hfs, mem_map_of_mem (List.mem_of_find?_eq_some hg)⟩
        have hfs' : fieldsOf s'.heap (some f) = some fs := by
          rw [fieldsOf_some, hkz f hf]
          exact fieldsOf_some.mp hfs
        have hw' : cellOf s'.heap g.cell = some w := by
          rw [cellOf_some, hkz g.cell hc]
          exact cellOf_some.mp hcell
        refine ⟨?_, Keeps.alike (fun t ht => hkz t ?_)⟩
        · simp only [State.readAt, hget, hz, hfs', hg, hw', bind_eq_bind, Option.bind_some]
        · obtain ⟨r, hr, hrt⟩ := ht
          obtain ⟨q, hq, hqc⟩ := hc
          exact ⟨q, hq, hqc.trans (.head ⟨_, cellOf_some.mp hcell, hr⟩ hrt)⟩
    · cases hw
  | setIndex i =>
    obtain ⟨z, hz, hw⟩ := bind_eq_some_iff.mp hw
    split at hw
    · next a =>
      obtain ⟨items, hi, hw⟩ := bind_eq_some_iff.mp hw
      obtain ⟨k, hk', hw⟩ := bind_eq_some_iff.mp hw
      obtain ⟨m, c, hobj⟩ := itemsOf_some hi
      have hkz := hk _ hz
      have hi' : itemsOf s'.heap a = some items := by
        rw [itemsOf, hkz a ⟨a, mem_singleton.mpr rfl, .refl⟩, hobj]
      refine ⟨?_, Keeps.alike (fun t ht => hkz t (LeadsTo.item hobj (mem_of_getElem? hw) ht))⟩
      simp only [State.readAt, hget, hz, hi', hk', bind_eq_bind, Option.bind_some]
      exact hw
    · cases hw
  | _ => cases hw

theorem reads_keeps {s s' : State α} {b : Borrow} (hsym : s'.symbols = s.symbols) (hdepth : s'.depth = s.depth)
    (hk : ∀ frame name z, s.get (.var frame name) = some z → Keeps s.heap s'.heap z)
    (hw : s.reads op (some b) = some w) : s'.reads op (some b) = some w ∧ Alike s'.heap w s.heap w := by
  by_cases hop : ∃ name, op = .assign name
  · obtain ⟨name, rfl⟩ := hop
    simp only [State.reads] at hw ⊢
    rw [hsym, hdepth]
    exact ⟨hw, (hk s.depth name w hw).alike⟩
  · have hreads : ∀ t : State α, t.reads op (some b) = (t.found b).bind (fun y => t.readAt y.place op) := by
      intro t
      cases op with
      | assign name => exact absurd ⟨name, rfl⟩ hop
      | _ => rfl
    rw [hreads] at hw ⊢
    obtain ⟨y, hy, hw⟩ := bind_eq_some_iff.mp hw
    obtain ⟨z, hz⟩ : ∃ z, s.get (.var b.frame b.name) = some z := by
      cases hpath : b.path with
      | nil =>
        rw [State.found, hpath, State.walk] at hy
        cases hy
        cases op with
        | setField name => exact ⟨_, (bind_eq_some_iff.mp hw).choose_spec.1⟩
        | setIndex i => exact ⟨_, (bind_eq_some_iff.mp hw).choose_spec.1⟩
        | _ => cases hw
      | cons t path =>
        rw [State.found, hpath] at hy
        obtain ⟨x1, hx1, _⟩ := bind_eq_some_iff.mp hy
        obtain ⟨z, _, _, hz, _⟩ := walkStep_way hx1
        exact ⟨z, hz⟩
    have hkz := hk _ _ z hz
    have hin : Inside s z y.place := Inside.walk b.path (Inside.var hz) hy
    obtain ⟨y', hy', hyy⟩ : ∃ y', s'.found b = some y' ∧ y'.place = y.place := by
      cases hpo : y.place.owner with
      | none =>
        have hpath : b.path = [] := by
          by_contra hne
          obtain ⟨o, ho⟩ := walk_owner hne hy
          rw [hpo] at ho
          cases ho
        rw [State.found, hpath] at hy ⊢
        exact ⟨y, hy, rfl⟩
      | some o =>
        have hl : Led s s' z o := by
          refine ⟨hsym, fun a ha _ => hkz a ha, fun m c items ho => ⟨c, items, ?_, rfl⟩⟩
          rw [hkz o (hin.owner o hpo), ho]
        exact walk_led hl b.path rfl (Inside.var hz) hy (fun o1 h1 => by rw [hpo] at h1; cases h1; rfl)
    have hget : s'.get y.place = s.get y.place := get_same hsym (fun o ho => hkz o (hin.owner o ho))
    have hkeep : ∀ c, s.get y.place = some c → Keeps s.heap s'.heap c := by
      rintro c hc t ⟨r, hr, hrt⟩
      obtain ⟨q, hq, hqr⟩ := hin.holds c hc r hr
      exact hkz t ⟨q, hq, hqr.trans hrt⟩
    rw [hy', Option.bind_some, hyy]
    exact readAt_keeps hget hkeep hw

/-- Where the answer is UNCHANGED, the target holds what it held, which the comparison finds equal to the value. -/
theorem unchanged_reads {s s' : State α} (hs : Sound s []) (hh : s.hand = v :: rest) (hl : s.Resolved op)
    (hans : s.assigned same op = some .unchanged) (hw : s.write same op = some s') :
    ∃ w, s.reads op s.held.head? = some w ∧
      valueStorageEqual same (State.calls s.heap) s.heap w v = some true ∧ s'.reads op s.held.head? = some w ∧
      Alike s'.heap w s.heap w := by
  have hdiscard : ∀ {held : List Borrow} {s' : State α}, ({ s with held := held } : State α).discard rest v = some s' →
      s'.symbols = s.symbols ∧ s'.depth = s.depth ∧
        ∀ frame name z, s.get (.var frame name) = some z → Keeps s.heap s'.heap z := by
    intro held s' hd
    have hs' : Sound s' [] := discard_sound (s := { s with held := held }) (X := []) (by
      rw [append_nil]
      exact hs.hand hh) hd
    obtain ⟨h1, hf, hd⟩ := bind_eq_some_iff.mp hd
    cases hd
    refine ⟨rfl, rfl, fun frame name z hz => Keeps.of_release hf (fun t ht => ?_)
      (fun _ _ _ _ hx hc => hs'.live_kid hx hc)⟩
    exact hs'.live_root (List.mem_append_right _ (mem_append_left _ (get_root (p := .var frame name) hz rfl ht)))
  have hstays : ∀ (held : List Borrow) {w : Val α}, s.reads op s.held.head? = some w →
      valueStorageEqual same (State.calls s.heap) s.heap w v = some true →
      ({ s with held := held } : State α).discard rest v = some s' →
      ∃ w, s.reads op s.held.head? = some w ∧ valueStorageEqual same (State.calls s.heap) s.heap w v = some true ∧
        s'.reads op s.held.head? = some w ∧ Alike s'.heap w s.heap w := by
    intro held w hread hequal hd
    obtain ⟨hsym, hdepth, hk⟩ := hdiscard hd
    refine ⟨w, hread, hequal, ?_⟩
    cases hheld : s.held.head? with
    | none =>
      rw [hheld] at hread
      cases op with
      | assign name =>
        simp only [State.reads] at hread ⊢
        rw [hsym, hdepth]
        exact ⟨hread, (hk s.depth name w hread).alike⟩
      | _ => cases hread
    | some b =>
      rw [hheld] at hread
      exact reads_keeps hsym hdepth hk hread
  cases op with
  | assign name =>
    simp only [State.assigned, hh] at hans
    obtain ⟨equal, he, hans⟩ := bind_eq_some_iff.mp hans
    cases equal with
    | false => cases hans
    | true =>
      simp only [State.write, hh, he, bind_eq_bind, Option.bind_some, if_true] at hw
      unfold State.sameSymbol at he
      split at he
      · next old hold => exact hstays s.held hold he hw
      · cases he
  | setField name =>
    obtain ⟨b, bs, y, hb, hy, hyb⟩ := hl.resolve_left (fun h => by obtain ⟨_, h⟩ := h; cases h)
    simp only [State.assigned, hb, hh] at hans
    obtain ⟨z, hz, hans⟩ := bind_eq_some_iff.mp hans
    split at hans
    · next r =>
      obtain ⟨equal, he, hans⟩ := bind_eq_some_iff.mp hans
      cases equal with
      | false => cases hans
      | true =>
        simp only [State.write, hb, hh, hz, he, bind_eq_bind, Option.bind_some, if_true] at hw
        obtain ⟨fs, hfs, he⟩ := bind_eq_some_iff.mp he
        split at he
        · next g hg =>
          obtain ⟨old, hold, he⟩ := bind_eq_some_iff.mp he
          refine hstays bs ?_ he hw
          simp only [State.reads, hb, head?_cons, hy, hyb, State.readAt, hz, hfs, hg, bind_eq_bind,
            Option.bind_some]
          exact hold
        · cases he
    · cases hans
  | setIndex i =>
    obtain ⟨b, bs, y, hb, hy, hyb⟩ := hl.resolve_left (fun h => by obtain ⟨_, h⟩ := h; cases h)
    simp only [State.assigned, hb, hh] at hans
    obtain ⟨z, hz, hans⟩ := bind_eq_some_iff.mp hans
    split at hans
    · next a =>
      obtain ⟨items, hi, hans⟩ := bind_eq_some_iff.mp hans
      split at hans
      · cases hans
      · next k hk =>
        obtain ⟨equal, he, hans⟩ := bind_eq_some_iff.mp hans
        cases equal with
        | false => cases hans
        | true =>
          simp only [State.write, hb, hh, hz, hi, hk, he, bind_eq_bind, Option.bind_some, if_true] at hw
          obtain ⟨old, hold, he⟩ := bind_eq_some_iff.mp he
          refine hstays bs ?_ he hw
          simp only [State.reads, hb, head?_cons, hy, hyb, State.readAt, hz, hi, hk, bind_eq_bind,
            Option.bind_some]
          exact hold
    · cases hans
  | assignThis =>
    simp only [State.assigned, hh] at hans
    cases hans
  | _ => simp [State.assigned] at hans

/-! ## The value written -/

theorem found_upheld {s s' : State α} {b : Borrow} (hy : s.found b = some y) (hyb : y.place = b.place)
    (hu : ∀ o, b.place.owner = some o → Upheld s s' o) : ∃ y', s'.found b = some y' ∧ y'.place = b.place := by
  cases hpo : b.place.owner with
  | none =>
    have hpath : b.path = [] := by
      by_contra hne
      obtain ⟨o, ho⟩ := walk_owner hne hy
      rw [hyb, hpo] at ho
      cases ho
    rw [State.found, hpath] at hy ⊢
    exact ⟨y, hy, hyb⟩
  | some o =>
    have hne : b.path ≠ [] := by
      intro hpath
      rw [State.found, hpath] at hy
      cases hy
      rw [← hyb] at hpo
      cases hpo
    obtain ⟨t, path, hpath⟩ := List.exists_cons_of_ne_nil hne
    obtain ⟨x1, hx1, _⟩ := bind_eq_some_iff.mp (show s.walk _ (t :: path) = some y by rw [← hpath]; exact hy)
    obtain ⟨z, _, _, hz, _⟩ := walkStep_way hx1
    have hl : Led s s' z o := ⟨(hu o hpo).symbols, fun a _ ha => (hu o hpo).above a ha, (hu o hpo).shape⟩
    obtain ⟨y', hy', hyy⟩ : ∃ y', s'.walk ⟨.var b.frame b.name, true, false⟩ b.path = some y' ∧ y'.place = y.place :=
      walk_led hl b.path rfl (Inside.var hz) hy (fun o1 h1 => by rw [hyb, hpo] at h1; cases h1; rfl)
    exact ⟨y', hy', hyy.trans hyb⟩

/-- Where the answer is CHANGED, the target reads as the value, and held none that the comparison finds equal to it. -/
theorem changed_stores {s s' : State α} (hs : Sound s []) (ha : s.heap.Acyclic) (hh : s.hand = v :: rest)
    (hl : s.Resolved op) (ho : s.Open same op) (hans : s.assigned same op = some .changed)
    (hw : s.write same op = some s') : Stored s s' op v ∧
      ∀ w, s.reads op s.held.head? = some w → valueStorageEqual same (State.calls s.heap) s.heap w v = some false := by
  have hs0 : ∀ held : List Borrow, Sound ({ s with hand := rest, held := held } : State α) (v.targets ++ []) := by
    intro held
    rw [append_nil]
    exact hs.hand hh
  cases op with
  | assign name =>
    simp only [State.assigned, hh] at hans
    obtain ⟨equal, he, hans⟩ := bind_eq_some_iff.mp hans
    cases equal with
    | true => cases hans
    | false =>
      simp only [State.write, hh, he, bind_eq_bind, Option.bind_some, Bool.false_eq_true, if_false] at hw
      have hs' : Sound s' [] := envSet_sound (hs.hand hh) hw
      simp only [State.envSet] at hw
      unfold State.sameSymbol at he
      split at hw
      · next old hold =>
        obtain ⟨h1, hf, hw⟩ := bind_eq_some_iff.mp hw
        cases hw
        have hreads := findInFrame_setSymbol v hold
        refine ⟨⟨v, hreads, Keeps.alike (Keeps.of_release hf (fun t ht => ?_)
          (fun _ _ _ _ hx hc => hs'.live_kid hx hc))⟩, fun w hw => ?_⟩
        · obtain ⟨x, hx, rfl⟩ := mem_of_findInFrame hreads
          exact hs'.live_root (List.mem_append_right _ (mem_append_left _ (List.mem_flatMap.mpr ⟨x, hx, ht⟩)))
        · simp only [State.reads] at hw
          simp only [hw] at he
          exact he
      · next hnone =>
        cases hw
        refine ⟨⟨v, ?_, fun n => rfl⟩, fun w hw => ?_⟩
        · simp only [State.reads, State.findInFrame] at hnone ⊢
          rw [Option.map_eq_none_iff] at hnone
          rw [List.find?_append, hnone, none_or, List.find?_cons_of_pos (by simp)]
          rfl
        · simp only [State.reads] at hw
          rw [hnone] at hw
          cases hw
  | setField name =>
    obtain ⟨b, bs, y, hb, hy, hyb⟩ := hl.resolve_left (fun h => by obtain ⟨_, h⟩ := h; cases h)
    simp only [State.assigned, hb, hh] at hans
    obtain ⟨z, hz, hans⟩ := bind_eq_some_iff.mp hans
    split at hans
    · next r =>
      obtain ⟨equal, he, hans⟩ := bind_eq_some_iff.mp hans
      cases equal with
      | true => cases hans
      | false =>
        simp only [State.write, hb, hh, hz, he, bind_eq_bind, Option.bind_some, Bool.false_eq_true, if_false] at hw
        obtain ⟨fs, hfs, hold⟩ := bind_eq_some_iff.mp he
        obtain ⟨howner, hlink⟩ := Open.setField ho hb hh hz hfs he
        obtain ⟨hk, ⟨f, hf, fs', g, hobj, hg, hcell⟩, hu⟩ := recordSet_stores (hs0 bs) ha hz hfs howner hlink hw
        obtain ⟨y', hy', hyy⟩ : ∃ y', s'.found b = some y' ∧ y'.place = b.place :=
          found_upheld hy hyb (fun o h => ⟨(hu o h).symbols, (hu o h).above, (hu o h).shape⟩)
        refine ⟨⟨v, ?_, hk.alike⟩, fun w hw' => ?_⟩
        · simp only [State.reads, hb, head?_cons, hy', hyy, State.readAt, hf, fieldsOf_some.mpr hobj, hg,
            bind_eq_bind, Option.bind_some]
          exact hcell
        · simp only [State.reads, hb, head?_cons, hy, hyb, State.readAt, hz, hfs, bind_eq_bind,
            Option.bind_some] at hw'
          obtain ⟨g0, hg0, hw'⟩ := bind_eq_some_iff.mp hw'
          rw [hg0] at hold
          simp only [hw', bind_eq_bind, Option.bind_some] at hold
          exact hold
    · cases hans
  | setIndex i =>
    obtain ⟨b, bs, y, hb, hy, hyb⟩ := hl.resolve_left (fun h => by obtain ⟨_, h⟩ := h; cases h)
    simp only [State.assigned, hb, hh] at hans
    obtain ⟨z, hz, hans⟩ := bind_eq_some_iff.mp hans
    split at hans
    · next a =>
      obtain ⟨items, hi, hans⟩ := bind_eq_some_iff.mp hans
      split at hans
      · cases hans
      · next k hk =>
        obtain ⟨equal, he, hans⟩ := bind_eq_some_iff.mp hans
        cases equal with
        | true => cases hans
        | false =>
          simp only [State.write, hb, hh, hz, hi, hk, he, bind_eq_bind, Option.bind_some, Bool.false_eq_true,
            if_false] at hw
          obtain ⟨⟨s1, a1⟩, h1, hw⟩ := bind_eq_some_iff.mp hw
          obtain ⟨h2, h3, hw⟩ := bind_eq_some_iff.mp hw
          cases hw
          have howner := Open.setIndex ho hb hh hz hi hk he
          have hs1 := detachArray_sound (hs0 bs) hz h1
          obtain ⟨hst, hone, hz1, _⟩ := detachArray_stands (hs0 bs) hz h1
          have hk1 := detachArray_keeps (hs0 bs) howner h1
          have e1 : Exact s1.heap (v.targets ++ ([] ++ s1.roots)) [] := by
            rw [← List.append_assoc]
            exact hs1
          have hmem : a1 ∈ (Val.array a1 : Val α).targets := mem_singleton.mpr rfl
          have hac := hst.acyclic ha
          have hi1 := detachArray_items (hs0 bs) ha hz hi h1
          obtain ⟨hk2, ⟨l, items', hl1, hi', hn, hget'⟩, hup⟩ :=
            storeSet_stores e1 hac (detached_unled hs1 hz1 hmem hone
            (fun o h hl' => howner o h (hk1.leadsTo_back hl'))) h3
          rw [hi1] at hl1
          cases hl1
          have hu : ∀ o, b.place.owner = some o → Upheld s { s1 with heap := h2 } o := by
            intro o h
            have hu1 := detachArray_upheld (hs0 bs) ha hz h h1
            have hu2 : Upheld s1 { s1 with heap := h2 } o :=
              Upheld.of_obj rfl (fun c hc => hup c (.tail' hc (edge_get hz1 h hmem)))
            exact Upheld.trans ⟨hu1.symbols, hu1.above, hu1.shape⟩ hu2
          obtain ⟨y', hy', hyy⟩ := found_upheld hy hyb hu
          have hget : ({ s1 with heap := h2 } : State α).get b.place = some (.array a1) := by
            rw [← hz1]
            exact get_same rfl (fun o h => hup o (.single (edge_get hz1 h hmem)))
          refine ⟨⟨v, ?_, (hk1.trans hk2).alike⟩, fun w hw' => ?_⟩
          · simp only [State.reads, hb, head?_cons, hy', hyy, State.readAt, hget, hi', hn, hk, bind_eq_bind,
              Option.bind_some]
            exact hget'
          · simp only [State.reads, hb, head?_cons, hy, hyb, State.readAt, hz, hi, hk, bind_eq_bind,
              Option.bind_some] at hw'
            simp only [State.sameItem, hw', bind_eq_bind, Option.bind_some] at he
            exact he
    · cases hans
  | assignThis =>
    simp only [State.assigned, hh] at hans
    cases hans
  | _ => simp [State.assigned] at hans

/-- The double 3 and the whole number 3. -/
def three : Same.Value := .number (.inexact 0x4008000000000000)

def wholeThree : Same.Value := .number (.exact 3)

/-- `r = { a: 3.0 }`, and the 4 that `r.a = 4` is about to store. -/
def setFour : List (Op Same.Value) :=
  [.literal three, .record [⟨text "a", .copy, none⟩], .assign (text "r"), .literal (.number (.exact 4)),
    .borrow (text "r")]

theorem assign_dropped {same : α → α → Bool} {s : State α} {name : Name} {v : Val α} {rest : List (Val α)}
    (hh : s.hand = v :: rest) (he : s.sameSymbol same name v = some true) :
    s.write same (.assign name) = s.discard rest v := by
  simp only [State.write, hh, he, bind_eq_bind, Option.bind_some, if_true]

end Cow
end Gbasic
