import Gbasic.CowExact
/-!
# CowCyclic — what a write may make reach itself

A write stores a value into the block that holds the place, or through a link into the field's cell.  It makes a cycle
only where the value leads back to that block, and along a path without links whose blocks are counted once it never
does: a value in the hand leads into none of them.
-/
namespace Gbasic
namespace Cow

open Counted Counted.Heap
open Relation.ReflTransGen (lift cases_tail head_induction_on cases_head)
open Option (bind_eq_some_iff)
open List (mem_flatMap mem_or_eq_of_mem_set mem_of_getElem? mem_singleton mem_append_left mem_map mem_map_of_mem
  mem_append)

variable {α : Type}
variable {h h' : Store α} {a b f i a' : Nat} {s s' : State α} {p : Place} {R X : List Nat} {fs : List Field}
  {z x v : Val α} {r' : Option Nat}

def Place.owner : Place → Option Nat
  | var _ _ => none
  | item a _ _ => some a
  | cell c => some c

def LeadsTo (h : Store α) (v : Val α) (o : Nat) : Prop := ∃ t ∈ v.targets, h.Reach t o

/-! ## Edges -/

theorem edge_of_release {l : List Nat} (hr : h.releaseAll l = some h') (hab : h'.Edge a b) : h.Edge a b :=
  hab.imp (fun _ hx => ⟨release_obj _ hr hx.1, hx.2⟩)

theorem acyclic_of_release {l : List Nat} (ha : h.Acyclic) (hr : h.releaseAll l = some h') : h'.Acyclic :=
  ha.mono (fun _ _ hab => edge_of_release hr hab)

theorem edge_lt (he : Exact h R []) (hab : h.Edge a b) : b < h.next := by
  obtain ⟨y, hy⟩ := he.edge_live hab
  exact he.live_lt hy

theorem edge_lt_left (he : Exact h R []) (hab : h.Edge a b) : a < h.next := by
  obtain ⟨x, hx, _⟩ := hab
  exact he.live_lt hx

theorem root_lt (he : Exact h R []) (ha : a ∈ R) : a < h.next := by
  obtain ⟨y, hy⟩ := he.live_root ha
  exact he.live_lt hy

theorem acyclic_builds (he : Exact h R []) (ha : h.Acyclic) (hb : Builds h h') : h'.Acyclic :=
  hb.acyclic ha (fun _ _ hab => edge_lt he hab)

theorem edge_put (hz : s.get p = some z) (hp : s.put p v = some s') (hab : s'.heap.Edge a b) :
    s.heap.Edge a b ∨ (p.owner = some a ∧ b ∈ v.targets) := by
  cases p with
  | var frame name =>
    cases hp
    exact Or.inl hab
  | item c m i =>
    simp only [State.put] at hp
    split at hp
    · next m' k items ho =>
      split at hp
      · cases hp
        obtain ⟨x, hx, hb⟩ := hab
        rw [store_obj] at hx
        split at hx
        · next hc =>
          rw [ho] at hx
          cases hx
          obtain ⟨w, hw, hbw⟩ := mem_flatMap.mp hb
          rcases mem_or_eq_of_mem_set hw with hw | rfl
          · exact Or.inl ⟨_, hc ▸ ho, mem_flatMap.mpr ⟨w, hw, hbw⟩⟩
          · exact Or.inr ⟨congrArg some hc.symm, hbw⟩
        · exact Or.inl ⟨x, hx, hb⟩
      · cases hp
    · cases hp
  | cell c =>
    simp only [State.put] at hp
    split at hp
    · next w ho =>
      cases hp
      obtain ⟨x, hx, hb⟩ := hab
      rw [store_obj] at hx
      split at hx
      · next hc =>
        rw [ho] at hx
        cases hx
        exact Or.inr ⟨congrArg some hc.symm, hb⟩
      · exact Or.inl ⟨x, hx, hb⟩
    · cases hp

theorem edge_get (hz : s.get p = some z) {o : Nat} (ho : p.owner = some o) (hb : b ∈ z.targets) : s.heap.Edge o b := by
  cases p with
  | var frame name => cases ho
  | item c m i =>
    cases ho
    simp only [State.get] at hz
    split at hz
    · next hobj =>
      split at hz
      · exact ⟨_, hobj, mem_flatMap.mpr ⟨z, mem_of_getElem? hz, hb⟩⟩
      · cases hz
    · cases hz
  | cell c =>
    cases ho
    exact ⟨_, cellOf_some.mp hz, hb⟩

theorem get_root (hz : s.get p = some z) (ho : p.owner = none) (hb : b ∈ z.targets) :
    b ∈ s.symbols.flatMap (fun x => x.value.targets) := by
  cases p with
  | var frame name =>
    obtain ⟨x, hx, rfl⟩ := mem_of_findInFrame hz
    exact mem_flatMap.mpr ⟨x, hx, hb⟩
  | item => cases ho
  | cell => cases ho

theorem owner_lt (hs : Sound s X) (hz : s.get p = some z) {o : Nat} (ho : p.owner = some o) : o < s.heap.next := by
  cases p with
  | var => cases ho
  | item c m i =>
    cases ho
    simp only [State.get] at hz
    split at hz
    · next hobj => exact hs.live_lt hobj
    · cases hz
  | cell c =>
    cases ho
    exact hs.live_lt (cellOf_some.mp hz)

theorem put_fields (hp : s.put p v = some s') (hf : s.heap.obj f = some (.fields fs)) :
    s'.heap.obj f = some (.fields fs) := by
  cases p with
  | var frame name =>
    cases hp
    exact hf
  | item b m i =>
    simp only [State.put] at hp
    split at hp
    · next ho =>
      split at hp
      · cases hp
        rw [store_obj, if_neg (fun hb => by rw [hb, ho] at hf; cases hf), hf]
      · cases hp
    · cases hp
  | cell b =>
    simp only [State.put] at hp
    split at hp
    · next ho =>
      cases hp
      rw [store_obj, if_neg (fun hb => by rw [hb, ho] at hf; cases hf), hf]
    · cases hp

theorem put_refs (hp : s.put p v = some s') (c : Nat) : s'.heap.refs c = s.heap.refs c := by
  cases p with
  | var frame name =>
    cases hp
    rfl
  | item b m i =>
    simp only [State.put] at hp
    split at hp
    · split at hp
      · cases hp
        exact store_refs _ _ _ _
      · cases hp
    · cases hp
  | cell b =>
    simp only [State.put] at hp
    split at hp
    · cases hp
      exact store_refs _ _ _ _
    · cases hp

/-! ## Detaching -/

def StandsFor (h h' : Store α) : Prop :=
  ∃ φ : Nat → Nat, (∀ a b, h'.Edge a b → h.Edge (φ a) (φ b)) ∧ ∀ a < h.next, φ a = a

theorem StandsFor.acyclic (hs : StandsFor h h') (ha : h.Acyclic) : h'.Acyclic := by
  obtain ⟨φ, hφ, _⟩ := hs
  exact ha.map φ hφ

theorem StandsFor.reach (hs : StandsFor h h') (ha : a < h.next) (hb : b < h.next) (hr : h'.Reach a b) :
    h.Reach a b := by
  obtain ⟨φ, hφ, hid⟩ := hs
  have h1 := lift φ hφ _ _ hr
  rwa [Function.onFun, hid a ha, hid b hb] at h1

structure Detached (h h' : Store α) (a a' : Nat) : Prop where
  edge : ∀ c d, h'.Edge c d → h.Edge c d ∨ (c = a' ∧ h.Edge a d)
  fresh : a' = a ∨ a' = h.next
  once : h'.refs a' = 1

theorem arrayEnsureUnique_detached (he : Exact h R []) (hd : arrayEnsureUnique h a = some (h', a')) :
    Detached h h' a a' := by
  unfold arrayEnsureUnique at hd
  split at hd
  · next m c items ho =>
    have hlt := he.live_lt ho
    split at hd
    · next h1 =>
      cases hd
      exact ⟨fun _ _ hab => Or.inl hab, Or.inl rfl, h1⟩
    · cases hd
      refine ⟨?_, Or.inr (retainAll_next _ _), ?_⟩
      · rintro b d ⟨x, hx, hd⟩
        rw [drop_obj, alloc_obj] at hx
        split at hx
        · next hb =>
          cases hx
          exact Or.inr ⟨hb, _, ho, hd⟩
        · rw [retainAll_obj] at hx
          exact Or.inl ⟨x, hx, hd⟩
      · have hne : a ≠ (h.retainAll (items.flatMap Val.targets)).next := by
          rw [retainAll_next]
          omega
        rw [drop_refs (x := Obj.store m c items) (by rw [alloc_obj, if_neg hne, retainAll_obj, ho]), alloc_refs,
          if_pos rfl, if_neg (Ne.symm hne)]
  · cases hd

theorem recordEnsureUnique_detached (he : Exact h R []) (hf : h.obj f = some (.fields fs))
    (hd : recordEnsureUnique h (some f) = some (h', r')) :
    ∃ f', r' = some f' ∧ Detached h h' f f' ∧ h'.obj f' = some (.fields fs) := by
  simp only [recordEnsureUnique, hf] at hd
  have hlt := he.live_lt hf
  split at hd
  · next h1 =>
    cases hd
    exact ⟨f, rfl, ⟨fun _ _ hab => Or.inl hab, Or.inl rfl, h1⟩, hf⟩
  · cases hd
    refine ⟨_, rfl, ⟨?_, Or.inr (retainAll_next _ _), ?_⟩, ?_⟩
    · rintro b d ⟨x, hx, hd⟩
      rw [drop_obj, alloc_obj] at hx
      split at hx
      · next hb =>
        cases hx
        exact Or.inr ⟨hb, _, hf, hd⟩
      · rw [retainAll_obj] at hx
        exact Or.inl ⟨x, hx, hd⟩
    · have hne : f ≠ (h.retainAll (fs.map Field.cell)).next := by
        rw [retainAll_next]
        omega
      rw [drop_refs (x := Obj.fields fs) (by rw [alloc_obj, if_neg hne, retainAll_obj, hf]), alloc_refs,
        if_pos rfl, if_neg (Ne.symm hne)]
    · rw [drop_obj, alloc_obj, if_pos rfl]

theorem detached_put (hs : Sound s X) (hz : s.get p = some z) (hz' : ({ s with heap := h } : State α).get p = some z)
    (hd : Detached s.heap h a a') (hza : z.targets = [a]) (hva : v.targets = [a'])
    (hp : ({ s with heap := h } : State α).put p v = some s') : StandsFor s.heap s'.heap := by
  refine ⟨fun b => if b = a' then a else b, fun b c hbc => ?_, fun b hb => ?_⟩
  · have hold : ∀ d, (∃ e, s.heap.Edge d e ∨ s.heap.Edge e d) → (if d = a' then a else d) = d := by
      rintro d ⟨e, hde⟩
      split
      · next hda =>
        rcases hd.fresh with hf | hf
        · rw [hda, hf]
        · rcases hde with hde | hde
          · have := edge_lt_left hs hde
            omega
          · have := edge_lt hs hde
            omega
      · rfl
    dsimp only
    rcases edge_put hz' hp hbc with hbc | ⟨ho, hc⟩
    · rcases hd.edge b c hbc with hbc | ⟨hb, hac⟩
      · rw [hold b ⟨c, Or.inl hbc⟩, hold c ⟨b, Or.inr hbc⟩]
        exact hbc
      · rw [if_pos hb, hold c ⟨a, Or.inr hac⟩]
        exact hac
    · rw [hva] at hc
      rw [mem_singleton.mp hc, if_pos rfl]
      have hoa := edge_get hz ho (b := a) (by rw [hza]; exact mem_singleton.mpr rfl)
      rw [hold b ⟨a, Or.inl hoa⟩]
      exact hoa
  · dsimp only
    split
    · next hba =>
      rcases hd.fresh with hf | hf
      · rw [hba, hf]
      · omega
    · rfl

theorem detachArray_stands (hs : Sound s X) (hz : s.get p = some (.array a)) (hd : s.detachArray p a = some (s', a')) :
    StandsFor s.heap s'.heap ∧ s'.heap.refs a' = 1 ∧ s'.get p = some (.array a') ∧ s'.hand = s.hand := by
  obtain ⟨⟨h1, a1⟩, h2, hd⟩ := bind_eq_some_iff.mp hd
  obtain ⟨s1, h3, hd⟩ := bind_eq_some_iff.mp hd
  cases hd
  have hdet := arrayEnsureUnique_detached hs h2
  have hz' := get_builds (arrayEnsureUnique_builds hs h2) hz
  exact ⟨detached_put hs hz hz' hdet rfl rfl h3, (put_refs h3 _).trans hdet.once, get_put hz' h3, (put_hand h3).1⟩

theorem detachRecord_stands (hs : Sound s X) (hf : s.heap.obj f = some (.fields fs))
    (hz : s.get p = some (.record (some f))) (hd : s.detachRecord p (some f) = some (s', r')) :
    ∃ f', r' = some f' ∧ StandsFor s.heap s'.heap ∧ s'.heap.refs f' = 1 ∧ s'.get p = some (.record (some f')) ∧
      s'.heap.obj f' = some (.fields fs) := by
  obtain ⟨⟨h1, r1⟩, h2, hd⟩ := bind_eq_some_iff.mp hd
  obtain ⟨s1, h3, hd⟩ := bind_eq_some_iff.mp hd
  cases hd
  obtain ⟨f1, rfl, hdet, hf1⟩ := recordEnsureUnique_detached hs hf h2
  have hz' := get_builds (recordEnsureUnique_builds hs h2) hz
  exact ⟨f1, rfl, detached_put hs hz hz' hdet rfl rfl h3, (put_refs h3 f1).trans hdet.once, get_put hz' h3,
    put_fields h3 hf1⟩

theorem detachRecord_none (hz : s.get p = some (.record none)) (hd : s.detachRecord p none = some (s', r')) :
    r' = none ∧ StandsFor s.heap s'.heap ∧ s'.get p = some (.record none) ∧ s'.heap.next = s.heap.next := by
  obtain ⟨s1, h3, hd⟩ := bind_eq_some_iff.mp hd
  cases hd
  refine ⟨rfl, ⟨id, fun a b hab => ?_, fun _ _ => rfl⟩, get_put hz h3, put_next h3⟩
  rcases edge_put hz h3 hab with hab | ⟨_, hb⟩
  · exact hab
  · cases hb

theorem Sound.leads_to (hs : Sound s X) (hz : s.get p = some z) {t : Nat} (ha : a ∈ z.targets)
    (h1 : s.heap.refs a = 1) (ht : t ∈ X) (hr : s.heap.Reach t a) : ∃ o, p.owner = some o ∧ s.heap.Reach t o := by
  cases ho : p.owner with
  | none =>
    have hroot := get_root hz ho ha
    rcases cases_tail hr with rfl | ⟨e, _, hea⟩
    · have h2 := Exact.exact hs a
      have h3 := List.count_pos_iff.mpr ht
      have h4 := List.count_pos_iff.mpr hroot
      simp only [State.roots, List.count_append, List.count_nil] at h2
      omega
    · exact absurd hea (Exact.once_root hs h1 (List.mem_append_right _ (mem_append_left _ hroot)))
  | some o =>
    have hoa := edge_get hz ho ha
    rcases cases_tail hr with rfl | ⟨e, hte, hea⟩
    · exact absurd hoa (Exact.once_root hs h1 (mem_append_left _ ht))
    · exact ⟨o, rfl, Exact.once_block hs h1 hea hoa ▸ hte⟩

/-! ## Writing -/

theorem attach_acyclic {fs' : List Field} (ha : h.Acyclic) (hlt : ∀ a b, h.Edge a b → b < h.next)
    (ho : h.obj f = some (.fields fs)) (hf : f < h.next) (hk : ∀ g ∈ fs', g ∈ fs ∨ g.cell = h.next)
    (hx : ∀ t ∈ x.targets, t < h.next ∧ ¬ h.Reach t f) : ((h.alloc (.cell x)).store f (.fields fs')).Acyclic := by
  have hnew : ∀ c, ¬ h.Edge c h.next := fun c hc => absurd (hlt c _ hc) (lt_irrefl _)
  have h1 := ha.alloc (x := Obj.cell x) hnew (fun hm => absurd (hx _ hm).1 (lt_irrefl _))
  refine h1.store_add (y := Obj.fields fs) (B := [h.next]) ?_ ?_ ?_
  · rw [alloc_obj, if_neg (by omega), ho]
  · intro b hb
    obtain ⟨g, hg, rfl⟩ := mem_map.mp hb
    rcases hk g hg with hg | hg
    · exact Or.inl (mem_map_of_mem hg)
    · exact Or.inr (by rw [hg]; exact mem_singleton.mpr rfl)
  · have hpath : ∀ a b, (h.alloc (.cell x)).Reach a b → a < h.next → h.Reach a b := by
      intro a b hab
      induction hab using head_induction_on with
      | refl => exact fun _ => .refl
      | head hac _ ih =>
        intro hlt'
        obtain ⟨y, hy, hc⟩ := hac
        rw [alloc_obj, if_neg (by omega)] at hy
        exact Relation.ReflTransGen.head ⟨y, hy, hc⟩ (ih (hlt _ _ ⟨y, hy, hc⟩))
    intro b hb hr
    rw [mem_singleton.mp hb] at hr
    rcases cases_head hr with hr | ⟨c, ⟨y, hy, hc⟩, hr⟩
    · omega
    · rw [alloc_obj, if_pos rfl] at hy
      cases hy
      exact (hx c hc).2 (hpath c f hr (hx c hc).1)

theorem fieldSet_acyclic {name : Name} (he : Exact h (x.targets ++ R) []) (ha : h.Acyclic)
    (ho : h.obj f = some (.fields fs)) (hf : ∀ t ∈ x.targets, ¬ h.Reach t f)
    (hlink : ∀ g, fs.find? (fun g => g.name = name) = some g → g.policy = .link → ∀ t ∈ x.targets, ¬ h.Reach t g.cell)
    (hd : fieldSet h f fs name x = some h') : h'.Acyclic := by
  have hx : ∀ t ∈ x.targets, t < h.next := fun t ht => root_lt he (mem_append_left _ ht)
  unfold fieldSet at hd
  split at hd
  · next i hs =>
    obtain ⟨g, hg, hd⟩ := bind_eq_some_iff.mp hd
    split at hd
    · obtain ⟨h1, hr, hd⟩ := bind_eq_some_iff.mp hd
      obtain ⟨fs', hf', hd⟩ := bind_eq_some_iff.mp hd
      cases hd
      have hf' := fieldsOf_some.mp hf'
      have hn := release_next _ hr
      refine attach_acyclic (acyclic_of_release ha hr)
        (fun a b hab => by rw [hn]; exact edge_lt he (edge_of_release hr hab))
        hf' (by rw [hn]; exact he.live_lt (release_obj _ hr hf')) (fun g' hg' => ?_)
        (fun t ht => ⟨by rw [hn]; exact hx t ht, fun hr' => ?_⟩)
      · rcases mem_or_eq_of_mem_set hg' with hg' | rfl
        · exact Or.inl hg'
        · exact Or.inr rfl
      · exact hf t ht (Relation.ReflTransGen.mono (fun _ _ hab => edge_of_release hr hab) _ _ hr')
    · next hcond =>
      obtain ⟨v, hv, hd⟩ := bind_eq_some_iff.mp hd
      obtain ⟨h1, hr, hd⟩ := bind_eq_some_iff.mp hd
      obtain ⟨w, hw, hd⟩ := bind_eq_some_iff.mp hd
      cases hd
      refine (acyclic_of_release ha hr).store_add (B := x.targets) (cellOf_some.mp hw) (fun b hb => Or.inr hb) ?_
      intro t ht hr'
      have hr' := Relation.ReflTransGen.mono (fun _ _ hab => edge_of_release hr hab) _ _ hr'
      have hfind : fs.find? (fun g => g.name = name) = some g := by
        unfold slotOf at hs
        rw [List.findIdx?_eq_some_iff_getElem] at hs
        obtain ⟨hlt, hname, hbefore⟩ := hs
        rw [List.find?_eq_some_iff_getElem]
        have hgi : fs[i] = g := (List.getElem?_eq_some_iff.mp hg).2
        refine ⟨by rw [← hgi]; exact hname, i, hlt, hgi, fun j hj => ?_⟩
        simpa using hbefore j hj
      by_cases hl : g.policy = .link
      · exact hlink g hfind hl t ht hr'
      · have hedge : h.Edge f g.cell := ⟨_, ho, mem_map_of_mem (mem_of_getElem? hg)⟩
        have hpos := Exact.refs_pos_kid he ho (mem_map_of_mem (mem_of_getElem? hg))
        have h1 : h.refs g.cell = 1 := by
          simp only [not_and, Nat.not_lt] at hcond
          have := hcond hl
          omega
        rcases cases_tail hr' with rfl | ⟨e, hte, hea⟩
        · exact he.once_root h1 (mem_append_left _ ht) hedge
        · exact hf t ht (he.once_block h1 hea hedge ▸ hte)
  · cases hd
    refine attach_acyclic ha (fun a b hab => edge_lt he hab) ho (he.live_lt ho) (fun g' hg' => ?_)
      (fun t ht => ⟨hx t ht, hf t ht⟩)
    rcases mem_append.mp hg' with hg' | hg'
    · exact Or.inl hg'
    · rw [mem_singleton.mp hg']
      exact Or.inr rfl

/-- A record's field set, or a field added to it, in a place that the value does not lead back to. -/
theorem recordSet_acyclic {r : Option Nat} {name : Name} (hs : Sound s (x.targets ++ X)) (ha : s.heap.Acyclic)
    (hz : s.get p = some (.record r)) (hfs : fieldsOf s.heap r = some fs)
    (hp : ∀ o, p.owner = some o → ∀ t ∈ x.targets, ¬ s.heap.Reach t o)
    (hlink : ∀ g, fs.find? (fun g => g.name = name) = some g → g.policy = .link → ∀ t ∈ x.targets,
      ¬ s.heap.Reach t g.cell)
    (hd : s.recordSet p r name x = some s') : s'.heap.Acyclic := by
  obtain ⟨⟨s1, r1⟩, h1, hd⟩ := bind_eq_some_iff.mp hd
  have hs1 := detachRecord_sound hs hz h1
  have hx : ∀ t ∈ x.targets, t < s.heap.next := fun t ht => root_lt hs (mem_append_left _ (mem_append_left _ ht))
  cases r with
  | none =>
    obtain ⟨rfl, hst, hz1, hn⟩ := detachRecord_none hz h1
    have e1 : Exact s1.heap (kids (Obj.cell x) ++ (X ++ s1.roots)) [] := by
      rw [← List.append_assoc]
      exact hs1
    have e2 := e1.alloc
    have hb := (Builds.alloc e1).trans (Builds.alloc (x := Obj.fields [⟨name, .copy, none, s1.heap.next⟩]) e2)
    have hac := acyclic_builds hs1 (hst.acyclic ha) hb
    have hz2 := get_builds hb hz1
    refine hac.point (o := p.owner.getD 0) (B := if p.owner.isSome then [s1.heap.next + 1] else []) ?_ ?_
    · intro a b hab
      rcases edge_put hz2 hd hab with hab | ⟨ho, hb⟩
      · exact Or.inl hab
      · rw [ho]
        exact Or.inr ⟨rfl, hb⟩
    · intro b hb' hr
      split at hb'
      · next hsome =>
        obtain ⟨o, ho⟩ := Option.isSome_iff_exists.mp hsome
        rw [ho, Option.getD_some] at hr
        rw [mem_singleton.mp hb'] at hr
        have holt := owner_lt hs1 hz1 ho
        have hold : ∀ a, ((s1.heap.alloc (.cell x)).alloc (.fields [⟨name, .copy, none, s1.heap.next⟩])).Reach a o →
            a < s1.heap.next → s1.heap.Reach a o := by
          intro a hao
          induction hao using head_induction_on with
          | refl => exact fun _ => .refl
          | head hac _ ih =>
            intro hlt
            obtain ⟨y, hy, hc⟩ := hac
            rw [alloc_obj, alloc_next, if_neg (by omega), alloc_obj, if_neg (by omega)] at hy
            exact Relation.ReflTransGen.head ⟨y, hy, hc⟩ (ih (edge_lt hs1 ⟨y, hy, hc⟩))
        rcases cases_head hr with hr | ⟨c, ⟨y, hy, hc⟩, hr⟩
        · omega
        · rw [alloc_obj, alloc_next, if_pos rfl] at hy
          cases hy
          rw [kids_fields, List.map_singleton, mem_singleton] at hc
          dsimp only at hc
          rw [hc] at hr
          rcases cases_head hr with hr | ⟨d, ⟨y, hy, hd⟩, hr⟩
          · omega
          · rw [alloc_obj, alloc_next, if_neg (by omega), alloc_obj, if_pos rfl] at hy
            cases hy
            have hdlt : d < s1.heap.next := by rw [hn]; exact hx d hd
            exact hp o ho d hd (hst.reach (hx d hd) (hn ▸ holt) (hold d hr hdlt))
      · cases hb'
  | some f =>
    obtain ⟨f1, rfl, hst, hone, hz1, ho1⟩ := detachRecord_stands hs (fieldsOf_some.mp hfs) hz h1
    obtain ⟨fs1, hf1, hd⟩ := bind_eq_some_iff.mp hd
    obtain ⟨h2, hset, hd⟩ := bind_eq_some_iff.mp hd
    cases hd
    have hsame : fs1 = fs := by
      have := (fieldsOf_some.mp hf1).symm.trans ho1
      simpa using this
    subst hsame
    have e1 : Exact s1.heap (x.targets ++ (X ++ s1.roots)) [] := by
      rw [← List.append_assoc]
      exact hs1
    refine fieldSet_acyclic e1 (hst.acyclic ha) (fieldsOf_some.mp hf1) ?_ ?_ hset
    · intro t ht hr
      obtain ⟨o, ho, hto⟩ := hs1.leads_to hz1 (a := f1) (by rw [targets_record]; simp) hone
        (mem_append_left _ ht) hr
      exact hp o ho t ht (hst.reach (hx t ht) (owner_lt hs hz ho) hto)
    · intro g hg hl t ht hr
      have hgl : g.cell < s.heap.next := by
        have hm := List.mem_of_find?_eq_some hg
        obtain ⟨y, hy⟩ := Live.of_field hs hfs hm
        exact hs.live_lt hy
      exact hlink g hg hl t ht (hst.reach (hx t ht) hgl hr)

theorem storeInsert_acyclic (ha : h.Acyclic) (hx : ∀ t ∈ x.targets, ¬ h.Reach t a)
    (hd : storeInsert h a i x = some h') : h'.Acyclic := by
  unfold storeInsert at hd
  split at hd
  · next moves capacity items ho =>
    cases hd
    refine ha.store_add (B := x.targets) ho (fun b hb => ?_) hx
    obtain ⟨w, hw, hbw⟩ := mem_flatMap.mp hb
    rcases mem_append.mp hw with hw | hw
    · exact Or.inl (mem_flatMap.mpr ⟨w, List.mem_of_mem_take hw, hbw⟩)
    · rcases List.mem_cons.mp hw with rfl | hw
      · exact Or.inr hbw
      · exact Or.inl (mem_flatMap.mpr ⟨w, List.mem_of_mem_drop hw, hbw⟩)
  · cases hd

theorem storeEdit_acyclic {edit : List (Val α) → List (Val α)} {B : List Nat} (ha : h.Acyclic)
    (hedit : ∀ items w, w ∈ edit items → w ∈ items ∨ ∀ b ∈ w.targets, b ∈ B) (hB : ∀ t ∈ B, ¬ h.Reach t a)
    (hd : storeEdit h a i edit = some h') : h'.Acyclic := by
  unfold storeEdit at hd
  obtain ⟨items, hi, hd⟩ := bind_eq_some_iff.mp hd
  obtain ⟨v, hv, hd⟩ := bind_eq_some_iff.mp hd
  obtain ⟨h1, hf, hd⟩ := bind_eq_some_iff.mp hd
  split at hd
  · next moves capacity items' ho =>
    cases hd
    refine (acyclic_of_release ha hf).store_add (B := B) ho (fun b hb => ?_) (fun t ht hr => hB t ht
      (Relation.ReflTransGen.mono (fun _ _ hab => edge_of_release hf hab) _ _ hr))
    obtain ⟨w, hw, hb⟩ := mem_flatMap.mp hb
    rcases hedit items' w hw with hw | hw
    · exact Or.inl (mem_flatMap.mpr ⟨w, hw, hb⟩)
    · exact Or.inr (hw b hb)
  · cases hd

theorem storeSet_acyclic (ha : h.Acyclic) (hx : ∀ t ∈ x.targets, ¬ h.Reach t a) (hd : storeSet h a i x = some h') :
    h'.Acyclic := by
  refine storeEdit_acyclic ha (fun items w hw => ?_) hx hd
  rcases mem_or_eq_of_mem_set hw with hw | rfl
  · exact Or.inl hw
  · exact Or.inr (fun b hb => hb)

theorem storeRemove_acyclic (ha : h.Acyclic) (hd : storeRemove h a i = some h') : h'.Acyclic :=
  storeEdit_acyclic (B := []) ha (fun _ _ hw => Or.inl (List.mem_of_mem_eraseIdx hw)) (by simp) hd

theorem cellForkForWrite_stands {c : Nat} {g : Field} (he : Exact h R []) (ho : h.obj f = some (.fields fs))
    (hi : fs[i]? = some g) (hd : cellForkForWrite h f fs i g = some (h', c)) : StandsFor h h' := by
  unfold cellForkForWrite at hd
  split at hd
  · cases hd
    exact ⟨id, fun _ _ hab => hab, fun _ _ => rfl⟩
  · split at hd
    · obtain ⟨v, hv, hd⟩ := bind_eq_some_iff.mp hd
      cases hd
      have hv := cellOf_some.mp hv
      have hlt := he.live_lt ho
      have hn : (valueCopy h v).next = h.next := retainAll_next _ _
      refine ⟨fun b => if b = h.next then g.cell else b, fun b d hbd => ?_, fun b hb => if_neg (by omega)⟩
      have hold : ∀ a, a < h.next → (if a = h.next then g.cell else a) = a := fun a ha => if_neg (by omega)
      obtain ⟨x, hx, hd⟩ := hbd
      rw [store_obj] at hx
      dsimp only
      split at hx
      · next hb =>
        obtain ⟨_, _, rfl⟩ := Option.map_eq_some_iff.mp hx
        obtain ⟨g', hg', rfl⟩ := mem_map.mp hd
        rw [hold b (by omega), hb]
        rcases mem_or_eq_of_mem_set hg' with hg' | rfl
        · have hedge : h.Edge f g'.cell := ⟨_, ho, mem_map_of_mem hg'⟩
          rw [hold _ (edge_lt he hedge)]
          exact hedge
        · rw [if_pos hn]
          exact ⟨_, ho, mem_map_of_mem (mem_of_getElem? hi)⟩
      · rw [drop_obj, alloc_obj] at hx
        split at hx
        · next hb =>
          cases hx
          have hedge : h.Edge g.cell d := ⟨_, hv, hd⟩
          rw [if_pos (hb.trans hn), hold d (edge_lt he hedge)]
          exact hedge
        · rw [valueCopy, retainAll_obj] at hx
          have hedge : h.Edge b d := ⟨x, hx, hd⟩
          rw [hold b (edge_lt_left he hedge), hold d (edge_lt he hedge)]
          exact hedge
    · cases hd
      exact ⟨id, fun _ _ hab => hab, fun _ _ => rfl⟩

/-- An override of an instance that no block names. -/
theorem override_acyclic {r : Option Nat} {wf : Field} (he : Exact h (r.toList ++ R) []) (ha : h.Acyclic)
    (hr : ∀ f ∈ r, ∀ b, ¬ h.Edge b f) (hd : override h r wf = some (h', r')) :
    h'.Acyclic ∧ ∀ f ∈ r', ∀ b, ¬ h'.Edge b f := by
  unfold override at hd
  obtain ⟨v, hv, hd⟩ := bind_eq_some_iff.mp hd
  have e1 := valueCopy_exact he (Live.of_cell he hv)
  have hcopy : ∀ a b, (valueCopy h v).Edge a b → h.Edge a b := by
    rintro a b ⟨x, hx, hb⟩
    rw [valueCopy, retainAll_obj] at hx
    exact ⟨x, hx, hb⟩
  have hn : (valueCopy h v).next = h.next := retainAll_next _ _
  have hac := ha.mono hcopy
  have hb1 := Builds.alloc (x := Obj.cell v) e1
  have e2 := Exact.alloc (x := Obj.cell v) e1
  have hkid : ∀ t ∈ v.targets, h.Edge wf.cell t := fun t ht => ⟨_, cellOf_some.mp hv, ht⟩
  dsimp only at hd
  cases r with
  | none =>
    cases hd
    have hb2 := hb1.trans (Builds.alloc (x := Obj.fields [⟨wf.name, wf.policy, wf.reset, (valueCopy h v).next⟩]) e2)
    refine ⟨acyclic_builds e1 hac hb2, fun f hf b hbf => ?_⟩
    cases hf
    have e3 := Exact.alloc (x := Obj.fields [⟨wf.name, wf.policy, wf.reset, (valueCopy h v).next⟩]) e2
    have h1 := edge_lt_left e3 hbf
    rcases hb2.edge _ _ hbf with hbf | ⟨_, hlt⟩
    · have := edge_lt e1 hbf
      omega
    · simp only [alloc_next] at h1 hlt
      omega
  | some f =>
    obtain ⟨fs, hfs, hd⟩ := bind_eq_some_iff.mp hd
    have hf := fieldsOf_some.mp hfs
    have hlt := e1.live_lt hf
    have hnof : ∀ b, ¬ h.Edge b f := hr f rfl
    have hx : ∀ t ∈ v.targets, t < (valueCopy h v).next ∧ ¬ (valueCopy h v).Reach t f := by
      intro t ht
      refine ⟨by rw [hn]; exact edge_lt he (hkid t ht), fun hreach => ?_⟩
      rcases cases_tail hreach with rfl | ⟨e, _, hea⟩
      · exact hnof _ (hkid _ ht)
      · exact hnof _ (hcopy _ _ hea)
    have hlt' : ∀ a b, (valueCopy h v).Edge a b → b < (valueCopy h v).next := fun a b hab => edge_lt e1 hab
    -- the blocks name the instance no more than before: its new cell names what the override's cell does
    have hfree : ∀ (h1 : Store α) fs', (∀ a b, h1.Edge a b → ((valueCopy h v).alloc (.cell v)).Edge a b) →
        (∀ g ∈ fs', g ∈ fs ∨ g.cell = (valueCopy h v).next) → ∀ b, ¬ (h1.store f (.fields fs')).Edge b f := by
      rintro h1 fs' hsub hk b ⟨x, hx', hbf⟩
      rw [store_obj] at hx'
      split at hx'
      · obtain ⟨_, _, rfl⟩ := Option.map_eq_some_iff.mp hx'
        obtain ⟨g, hg, hgf⟩ := mem_map.mp hbf
        rcases hk g hg with hg | hg
        · exact hnof f (hcopy _ _ ⟨_, hf, hgf ▸ mem_map_of_mem hg⟩)
        · omega
      · obtain ⟨y, hy, hyf⟩ := hsub b f ⟨x, hx', hbf⟩
        rw [alloc_obj] at hy
        split at hy
        · cases hy
          exact hnof _ (hkid f hyf)
        · exact hnof b (hcopy _ _ ⟨y, hy, hyf⟩)
    have hf1 : ((valueCopy h v).alloc (.cell v)).obj f = some (.fields fs) := by
      rw [alloc_obj, if_neg (by omega), hf]
    split at hd
    · next i hs =>
      obtain ⟨g, hg, hd⟩ := bind_eq_some_iff.mp hd
      obtain ⟨h1, hrel, hd⟩ := bind_eq_some_iff.mp hd
      obtain ⟨fs', hf', hd⟩ := bind_eq_some_iff.mp hd
      cases hd
      have hf' := fieldsOf_some.mp hf'
      have hsame := release_obj _ hrel hf'
      rw [hf1] at hsame
      cases hsame
      have hk : ∀ g' ∈ fs.set i ⟨g.name, wf.policy, wf.reset, (valueCopy h v).next⟩,
          g' ∈ fs ∨ g'.cell = (valueCopy h v).next := by
        intro g' hg'
        rcases mem_or_eq_of_mem_set hg' with hg' | rfl
        · exact Or.inl hg'
        · exact Or.inr rfl
      refine ⟨?_, fun f' hf'' => ?_⟩
      · have h2 := attach_acyclic hac hlt' hf hlt hk hx
        refine h2.mono (fun a b hab => ?_)
        obtain ⟨x, hx', hb⟩ := hab
        rw [store_obj] at hx'
        refine ⟨x, ?_, hb⟩
        rw [store_obj]
        split
        · next ha' =>
          rw [if_pos ha', hf'] at hx'
          rw [hf1]
          exact hx'
        · next ha' =>
          rw [if_neg ha'] at hx'
          exact release_obj _ hrel hx'
      · cases hf''
        exact hfree h1 _ (fun a b hab => edge_of_release hrel hab) hk
    · cases hd
      have hk : ∀ g' ∈ fs ++ [(⟨wf.name, wf.policy, wf.reset, (valueCopy h v).next⟩ : Field)],
          g' ∈ fs ∨ g'.cell = (valueCopy h v).next := by
        intro g' hg'
        rcases mem_append.mp hg' with hg' | hg'
        · exact Or.inl hg'
        · rw [mem_singleton.mp hg']
          exact Or.inr rfl
      refine ⟨attach_acyclic hac hlt' hf hlt hk hx, fun f' hf'' => ?_⟩
      cases hf''
      exact hfree _ _ (fun _ _ hab => hab) hk

theorem overrideAll_acyclic {R : List Nat} : ∀ (l : List Field) {h h' : Store α} {r r' : Option Nat}
    (_ : Exact h (r.toList ++ R) []) (_ : h.Acyclic) (_ : ∀ f ∈ r, ∀ b, ¬ h.Edge b f)
    (_ : overrideAll h r l = some (h', r')), h'.Acyclic
  | [], h, h', r, r', _, ha, _, hd => by
    cases hd
    exact ha
  | wf :: l, h, h', r, r', he, ha, hr, hd => by
    obtain ⟨⟨h1, r1⟩, h2, hd⟩ := bind_eq_some_iff.mp hd
    obtain ⟨ha1, hr1⟩ := override_acyclic he ha hr h2
    exact overrideAll_acyclic l (override_exact he h2) ha1 hr1 hd

end Cow
end Gbasic
