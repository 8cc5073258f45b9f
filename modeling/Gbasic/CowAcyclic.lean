import Gbasic.CowPath
import Gbasic.ValueEqual
/-!
# CowAcyclic — values never become cyclic, where no write closes a loop

A step makes a cycle only where it stores a value into a block that the value leads back to, which a write along a path
without links never does while the blocks of the path are counted once.  Without cycles every walk comes back.
-/
namespace Gbasic
namespace Cow

open Counted Counted.Heap
open Option (bind_eq_some_iff bind_eq_bind map_some)
open List (count_append flatMap_cons mem_append_left nil_append mem_cons_self mem_singleton append_nil
  mem_cons_of_mem)
open State (evalExpr resolve invoke write init)

variable {α : Type}
variable {s s' : State α} {v : Val α} {op : Op α} {same : α → α → Bool} {a t n : Nat} {x : Obj α}
  {rest : List (Val α)} {g : Field}

/-! ## Steps -/

/-- The counts stay exact, and where there was no cycle there is none. -/
def Stays (h : Store α) (s' : State α) : Prop := Sound s' [] ∧ (h.Acyclic → s'.heap.Acyclic)

theorem Stays.replaced {h : Store α} {r : List (Val α)} {w : Val α} (ha : h.Acyclic → s.heap.Acyclic)
    (hs : Sound ({ s with hand := r } : State α) (v.targets ++ w.targets)) (hd : s.replace r w v = some s') :
    Stays h s' := by
  refine ⟨replace_sound hs hd, fun hacyclic => ?_⟩
  obtain ⟨h1, hf, hd⟩ := bind_eq_some_iff.mp hd
  cases hd
  exact acyclic_of_release (ha hacyclic) hf

theorem Stays.extracted {c : Val α} (hs : Sound s []) (hh : s.hand = c :: rest) (hv : Live s.heap v.targets)
    (hd : s.extract rest c v = some s') : Stays s.heap s' := by
  refine ⟨extract_sound (by rw [← hh]; exact hs) hv hd, fun ha => ?_⟩
  obtain ⟨h1, hf, hd⟩ := bind_eq_some_iff.mp hd
  cases hd
  exact acyclic_of_release (acyclic_builds hs ha (Builds.retainAll _ _)) hf

theorem evalExpr_stays (hs : Sound s []) (hd : s.evalExpr op = some s') : Stays s.heap s' := by
  cases op with
  | nothing | unknown | literal =>
    cases hd
    exact ⟨Sound.push hs, id⟩
  | read name =>
    simp only [evalExpr] at hd
    split at hd
    · cases hd
      exact ⟨Sound.push hs, id⟩
    · next frame _ =>
      obtain ⟨v, hv, hd⟩ := bind_eq_some_iff.mp hd
      cases hd
      exact ⟨Sound.push (valueCopy_exact hs (hs.live (p := .var frame name) hv)),
        fun ha => acyclic_builds hs ha (Builds.retainAll _ _)⟩
  | readThis =>
    simp only [evalExpr] at hd
    split at hd
    · obtain ⟨v, hv, hd⟩ := bind_eq_some_iff.mp hd
      cases hd
      exact ⟨Sound.push (valueCopy_exact hs (hs.live hv)), fun ha => acyclic_builds hs ha (Builds.retainAll _ _)⟩
    · cases hd
      exact ⟨Sound.push hs, id⟩
  | bind a =>
    simp only [evalExpr] at hd
    split at hd
    · next ctx rest hh =>
      cases hd
      exact ⟨Sound.push (s := { s with hand := rest }) (v := .bound a ctx) (hs.hand hh), id⟩
    · cases hd
  | array n =>
    simp only [evalExpr] at hd
    split at hd
    · cases hd
      exact ⟨Sound.push (s := { s with hand := s.hand.drop n }) (valueArray_exact (hs.take n)), fun ha =>
        acyclic_builds hs ha (Builds.alloc (x := Obj.store 0 _ (s.hand.take n).reverse) (hs.take n))⟩
    · cases hd
  | record decls =>
    simp only [evalExpr] at hd
    split at hd
    · cases hd
      have e0 : Exact s.heap ((decls.zip (s.hand.take decls.length).reverse).flatMap (fun x => x.2.targets) ++
          ({ s with hand := s.hand.drop decls.length } : State α).roots) [] :=
        Exact.roots (hs.take decls.length) (fun c => by
          rw [count_append, count_append, literalFields_take, List.map_snd_zip]
          rw [List.length_reverse, List.length_take]
          omega)
      have e1 := literalFields_exact _ e0
      exact ⟨Sound.push (s := { s with hand := s.hand.drop decls.length }) (valueRecord_exact e1),
        fun ha => acyclic_builds hs ha ((literalFields_builds _ e0).trans (valueRecord_builds e1))⟩
    · cases hd
  | index i =>
    simp only [evalExpr] at hd
    split at hd
    · next a rest hh =>
      obtain ⟨items, hi, hd⟩ := bind_eq_some_iff.mp hd
      split at hd
      · next v hv =>
        obtain ⟨k, _, hv⟩ := bind_eq_some_iff.mp hv
        exact .extracted hs hh (Live.of_item hs hi hv) hd
      · exact .replaced id (hs.hand hh) hd
    · next v rest hh => exact .replaced id (hs.hand hh) hd
    · cases hd
  | key name =>
    simp only [evalExpr] at hd
    split at hd
    · next f rest hh =>
      obtain ⟨fs, hf, hd⟩ := bind_eq_some_iff.mp hd
      split at hd
      · obtain ⟨v, hv, hd⟩ := bind_eq_some_iff.mp hd
        exact .extracted hs hh (Live.of_cell hs hv) hd
      · exact .replaced id (hs.hand hh) hd
    · next v rest hh => exact .replaced id (hs.hand hh) hd
    · cases hd
  | field name =>
    simp only [evalExpr] at hd
    split at hd
    · next f rest hh =>
      obtain ⟨fs, hf, hd⟩ := bind_eq_some_iff.mp hd
      split at hd
      · obtain ⟨v, hv, hd⟩ := bind_eq_some_iff.mp hd
        exact .extracted hs hh (Live.of_cell hs hv) hd
      · exact .replaced id (hs.hand hh) hd
    · cases hd
    · next v rest hh => exact .replaced id (hs.hand hh) hd
    · cases hd
  | derive n =>
    simp only [evalExpr] at hd
    split at hd
    · next f rest hh =>
      obtain ⟨⟨d, v⟩, h1, hd⟩ := bind_eq_some_iff.mp hd
      split at hd
      · next hnil =>
        have hs1 := hs.take n
        rw [hh] at hs1
        have e1 : Exact s.heap ((s.hand.take n).reverse.flatMap Val.targets ++
            ((Val.record f : Val α).targets ++ ({ s with hand := rest } : State α).roots)) [] :=
          Exact.roots hs1 (fun c => by
            simp only [State.roots, flatMap_cons, count_append]
            omega)
        obtain ⟨e2, hb⟩ := derive_exact _ _ (s.heap, (s.hand.take n).reverse) _ d v e1 (Live.of_exact e1 (fun a ha =>
          List.mem_append_right _ (mem_append_left _ ha))) h1
        rw [List.isEmpty_iff.mp hnil] at e2
        refine .replaced (s := { s with heap := d.1 }) (r := rest) (v := v) (w := .record f)
          (fun ha => acyclic_builds hs ha hb) (Exact.roots e2 (fun c => ?_)) hd
        simp only [List.flatMap_nil, nil_append, count_append, State.roots]
        omega
      · cases hd
    · next v rest hh =>
      split at hd
      · next hn =>
        rw [hn, List.drop_zero] at hh
        exact .replaced id (hs.hand hh) hd
      · cases hd
    · cases hd
  | override =>
    simp only [evalExpr] at hd
    split at hd
    · next g r rest hh =>
      obtain ⟨fs, hf, hd⟩ := bind_eq_some_iff.mp hd
      split at hd
      · next hone =>
        obtain ⟨⟨h1, r1⟩, h2, hd⟩ := bind_eq_some_iff.mp hd
        have e1 : Exact s.heap (r.toList ++ ((Val.record g : Val α).targets ++
            ({ s with hand := rest } : State α).roots)) [] :=
          Exact.roots hs (fun c => by
            simp only [State.roots, hh, nil_append, flatMap_cons, targets_record, count_append]
            omega)
        refine .replaced (s := { s with heap := h1 }) (r := rest) (v := .record r1) (w := .record g)
          (fun ha => overrideAll_acyclic fs e1 ha (fun f hf b => ?_) h2)
          (Exact.roots (overrideAll_exact fs e1 h2) (fun c => ?_)) hd
        · cases hf
          simp only [Option.all_some, decide_eq_true_eq] at hone
          exact e1.once_root hone (by simp)
        · simp only [targets_record, count_append, State.roots]
          omega
      · cases hd
    · cases hd
  | insert spot =>
    simp only [evalExpr] at hd
    split at hd
    · next a x rest hh =>
      obtain ⟨items, hi, hd⟩ := bind_eq_some_iff.mp hd
      split at hd
      · obtain ⟨⟨h1, a1⟩, h2, hd⟩ := bind_eq_some_iff.mp hd
        obtain ⟨h3, h4, hd⟩ := bind_eq_some_iff.mp hd
        cases hd
        have hroot : a ∈ s.roots := by
          rw [State.roots, hh]
          simp
        have e1 := arrayEnsureUnique_exact hs (Exact.refs_pos hs hroot) h2
        have e2 : Exact h1 (x.targets ++ ((Val.array a1 : Val α).targets ++
            ({ s with hand := rest } : State α).roots)) [] :=
          Exact.congr e1 (fun c => by
            simp only [State.roots, hh, nil_append, flatMap_cons, targets_array, count_append, List.count_cons,
              List.count_nil]
            omega)
        refine ⟨Sound.push (s := { s with hand := rest }) (storeInsert_exact e2 h4), fun ha => ?_⟩
        have hone := (arrayEnsureUnique_detached hs h2).once
        refine storeInsert_acyclic (acyclic_builds hs ha (arrayEnsureUnique_builds hs h2)) (fun t ht hr => ?_) h4
        rcases Relation.ReflTransGen.cases_tail hr with rfl | ⟨e, _, hea⟩
        · have h5 := Exact.exact e2 a1
          have h6 : 0 < x.targets.count a1 := List.count_pos_iff.mpr ht
          simp only [targets_array, List.count_cons_self, count_append, List.count_nil] at h5
          omega
        · exact e2.once_root hone (by simp) hea
      · obtain ⟨h1, hf, hd⟩ := bind_eq_some_iff.mp hd
        have e1 := valueFree_exact (v := .array a) (R := x.targets ++ ({ s with hand := rest } : State α).roots)
          (Exact.roots hs (fun c => by
            simp only [State.roots, hh, nil_append, flatMap_cons, count_append]
            omega)) hf
        exact .replaced (s := { s with heap := h1 }) (v := .null) (fun ha => acyclic_of_release ha hf) e1 hd
    · next v x rest _ hh =>
      obtain ⟨h1, hf, hd⟩ := bind_eq_some_iff.mp hd
      have e1 := valueFree_exact (v := v) (R := x.targets ++ ({ s with hand := rest } : State α).roots)
        (Exact.roots hs (fun c => by
          simp only [State.roots, hh, nil_append, flatMap_cons, count_append]
          omega)) hf
      exact .replaced (s := { s with heap := h1 }) (v := .null) (fun ha => acyclic_of_release ha hf) e1 hd
    · cases hd
  | drop =>
    simp only [evalExpr] at hd
    split at hd
    · next v rest hh =>
      refine ⟨discard_sound (X := []) (by rw [append_nil]; exact hs.hand hh) hd, fun ha => ?_⟩
      obtain ⟨h1, hf, hd⟩ := bind_eq_some_iff.mp hd
      cases hd
      exact acyclic_of_release ha hf
    · cases hd
  | _ => cases hd

theorem resolve_stays (hs : Sound s []) (hd : s.resolve op = some s') : Stays s.heap s' := by
  cases op with
  | borrow | borrowThis =>
    simp only [resolve] at hd
    split at hd <;> (cases hd; exact ⟨hs, id⟩)
  | stepField name =>
    simp only [resolve] at hd
    split at hd
    · cases hd
    · next b bs _ =>
      obtain ⟨z, hz, hd⟩ := bind_eq_some_iff.mp hd
      split at hd
      · next r =>
        obtain ⟨⟨s1, r1⟩, h1, hd⟩ := bind_eq_some_iff.mp hd
        have hs1 := detachRecord_sound hs hz h1
        have ha1 : s.heap.Acyclic → s1.heap.Acyclic := by
          intro ha
          cases r with
          | none => exact (detachRecord_none hz h1).2.1.acyclic ha
          | some f =>
            have h2 := h1
            obtain ⟨⟨h3, r3⟩, h4, _⟩ := bind_eq_some_iff.mp h2
            simp only [recordEnsureUnique] at h4
            split at h4
            · next fs hf =>
              obtain ⟨_, _, hst, _⟩ := detachRecord_stands hs hf hz h1
              exact hst.acyclic ha
            · cases h4
        cases r1 with
        | none =>
          cases hd
          exact ⟨hs1, ha1⟩
        | some f =>
          obtain ⟨fs, hf, hd⟩ := bind_eq_some_iff.mp hd
          split at hd
          · cases hd
            exact ⟨hs1, ha1⟩
          · obtain ⟨g, hg, hd⟩ := bind_eq_some_iff.mp hd
            obtain ⟨⟨h2, c⟩, h3, hd⟩ := bind_eq_some_iff.mp hd
            cases hd
            exact ⟨cellForkForWrite_exact hs1 (fieldsOf_some.mp hf) hg h3,
              fun ha => (cellForkForWrite_stands hs1 (fieldsOf_some.mp hf) hg h3).acyclic (ha1 ha)⟩
      · cases hd
        exact ⟨hs, id⟩
  | stepIndex i =>
    simp only [resolve] at hd
    split at hd
    · cases hd
    · obtain ⟨z, hz, hd⟩ := bind_eq_some_iff.mp hd
      split at hd
      · obtain ⟨items, hi, hd⟩ := bind_eq_some_iff.mp hd
        split at hd
        · cases hd
          exact ⟨hs, id⟩
        · obtain ⟨⟨s1, a1⟩, h1, hd⟩ := bind_eq_some_iff.mp hd
          have hs1 := detachArray_sound hs hz h1
          have ha1 := (detachArray_stands hs hz h1).1.acyclic
          dsimp only at hd
          split at hd
          · cases hd
            exact ⟨hs1, ha1⟩
          · cases hd
      · cases hd
        exact ⟨hs, id⟩
  | letGo =>
    cases hd
    exact ⟨hs, id⟩
  | _ => cases hd

theorem discard_acyclic {old : Val α} (ha : s.heap.Acyclic) (hd : s.discard rest old = some s') : s'.heap.Acyclic := by
  obtain ⟨h1, hf, hd⟩ := bind_eq_some_iff.mp hd
  cases hd
  exact acyclic_of_release ha hf

theorem envSet_acyclic {name : Name} (ha : s.heap.Acyclic) (hd : s.envSet name v = some s') : s'.heap.Acyclic := by
  unfold State.envSet at hd
  split at hd
  · obtain ⟨h1, hf, hd⟩ := bind_eq_some_iff.mp hd
    cases hd
    exact acyclic_of_release ha hf
  · cases hd
    exact ha

theorem invoke_stays (hs : Sound s []) (hd : s.invoke op = some s') : Stays s.heap s' := by
  cases op with
  | call method =>
    cases method with
    | true =>
      simp only [invoke] at hd
      split at hd
      · cases hd
        exact ⟨hs, id⟩
      · cases hd
    | false =>
      cases hd
      exact ⟨hs, id⟩
  | param name =>
    simp only [invoke] at hd
    split at hd
    · next v rest hh =>
      exact ⟨envSet_sound (hs.hand hh) hd, fun ha => envSet_acyclic (s := { s with hand := rest }) ha hd⟩
    · cases hd
  | leave =>
    simp only [invoke] at hd
    split at hd
    · cases hd
    · obtain ⟨h1, hf, hd⟩ := bind_eq_some_iff.mp hd
      cases hd
      refine ⟨Exact.release _ (Exact.roots hs (fun c => ?_)) hf, fun ha => acyclic_of_release ha hf⟩
      have h1 := filter_count s.symbols (fun x => decide (x.frame = s.depth)) c
      simp only [decide_not]
      simp only [State.roots, nil_append, count_append]
      omega
  | _ => cases hd

/-! ## Writes -/

/-- The block that a write is about to store its value into: the cell of a link, or else the block that holds the
place. -/
def State.storesInto (same : α → α → Bool) (s : State α) (op : Op α) : Option (Nat × Val α) :=
  match op, s.held, s.hand with
  | .setField name, b :: _, v :: _ => do
    match ← s.get b.place with
    | .record r => do
      let fs ← fieldsOf s.heap r
      if ← s.sameField same r name v then none
      else
        match fs.find? (fun g => g.name = name) with
        | some g => if g.policy = .link then some (g.cell, v) else b.place.owner.map (·, v)
        | none => b.place.owner.map (·, v)
    | _ => none
  | .setIndex i, b :: _, v :: _ => do
    match ← s.get b.place with
    | .array a => do
      let items ← itemsOf s.heap a
      if ← s.sameItem same items (← itemAt items.length i) v then none else b.place.owner.map (·, v)
    | _ => none
  | .insertTo spot, b :: _, v :: _ => do
    match ← s.get b.place with
    | .array a => do
      let _ ← spot.at? (← itemsOf s.heap a).length
      b.place.owner.map (·, v)
    | _ => none
  | _, _, _ => none

/-- A write along a path without links, the blocks of the path counted once. -/
def State.Plain (s : State α) (op : Op α) : Prop :=
  ∃ b bs, s.held = b :: bs ∧ s.found b = some ⟨b.place, true, false⟩ ∧
    ∀ name, op = .setField name → ∀ r fs g, s.get b.place = some (.record r) → fieldsOf s.heap r = some fs →
      fs.find? (fun g => g.name = name) = some g → g.policy ≠ .link

/-- A write that closes no loop. -/
def State.Open (same : α → α → Bool) (s : State α) (op : Op α) : Prop :=
  ∀ o v, s.storesInto same op = some (o, v) → ¬ LeadsTo s.heap v o

theorem storesInto_plain {o : Nat} (hp : s.Plain op) (hd : s.storesInto same op = some (o, v)) :
    ∃ b, s.found b = some ⟨b.place, true, false⟩ ∧ b.place.owner = some o ∧ v ∈ s.hand := by
  obtain ⟨b, bs, hb, hfound, hlink⟩ := hp
  refine ⟨b, hfound, ?_⟩
  have howner : ∀ w, (b.place.owner.map (·, w)) = some (o, v) → b.place.owner = some o ∧ v = w := by
    intro w hw
    obtain ⟨o', ho, hw⟩ := Option.map_eq_some_iff.mp hw
    cases hw
    exact ⟨ho, rfl⟩
  unfold State.storesInto at hd
  rw [hb] at hd
  split at hd
  · next name b' _ w rest heq hh =>
    cases heq
    obtain ⟨z, hz, hd⟩ := bind_eq_some_iff.mp hd
    split at hd
    · next r =>
      obtain ⟨fs, hfs, hd⟩ := bind_eq_some_iff.mp hd
      obtain ⟨equal, _, hd⟩ := bind_eq_some_iff.mp hd
      split at hd
      · cases hd
      · split at hd
        · next g hg =>
          rw [if_neg (hlink name rfl r fs g hz hfs hg)] at hd
          obtain ⟨ho, rfl⟩ := howner w hd
          exact ⟨ho, by rw [hh]; exact mem_cons_self ..⟩
        · obtain ⟨ho, rfl⟩ := howner w hd
          exact ⟨ho, by rw [hh]; exact mem_cons_self ..⟩
    · cases hd
  · next i b' _ w rest heq hh =>
    cases heq
    obtain ⟨z, hz, hd⟩ := bind_eq_some_iff.mp hd
    split at hd
    · obtain ⟨items, _, hd⟩ := bind_eq_some_iff.mp hd
      obtain ⟨k, _, hd⟩ := bind_eq_some_iff.mp hd
      obtain ⟨equal, _, hd⟩ := bind_eq_some_iff.mp hd
      split at hd
      · cases hd
      · obtain ⟨ho, rfl⟩ := howner w hd
        exact ⟨ho, by rw [hh]; exact mem_cons_self ..⟩
    · cases hd
  · next spot b' _ w rest heq hh =>
    cases heq
    obtain ⟨z, hz, hd⟩ := bind_eq_some_iff.mp hd
    split at hd
    · obtain ⟨items, _, hd⟩ := bind_eq_some_iff.mp hd
      obtain ⟨k, _, hd⟩ := bind_eq_some_iff.mp hd
      obtain ⟨ho, rfl⟩ := howner w hd
      exact ⟨ho, by rw [hh]; exact mem_cons_self ..⟩
    · cases hd
  · cases hd

/-- **A write along a path without links closes no loop.** -/
theorem Open.of_plain (hs : Sound s []) (hp : s.Plain op) : s.Open same op := by
  intro o v hd
  obtain ⟨b, hfound, ho, hv⟩ := storesInto_plain hp hd
  exact plain_unreached hs hfound ho hv

theorem not_leadsTo {h : Store α} {o : Nat} (hl : ¬ LeadsTo h v o) : ∀ t ∈ v.targets, ¬ h.Reach t o :=
  fun t ht hr => hl ⟨t, ht, hr⟩

theorem detached_free {s1 : State α} {X : List Nat} {p : Place} {a1 : Nat} (hs : Sound s (v.targets ++ X))
    (hz : s.get p = some (.array a)) (hd : s.detachArray p a = some (s1, a1))
    (hp : ∀ o, p.owner = some o → ¬ LeadsTo s.heap v o) : ∀ t ∈ v.targets, ¬ s1.heap.Reach t a1 := by
  obtain ⟨hst, hone, hz1, _⟩ := detachArray_stands hs hz hd
  have hs1 := detachArray_sound hs hz hd
  intro t ht hr
  obtain ⟨o, ho, hto⟩ := hs1.leads_to hz1 (a := a1) (mem_singleton.mpr rfl) hone (mem_append_left _ ht) hr
  have hroot : t ∈ (v.targets ++ X) ++ s.roots := mem_append_left _ (mem_append_left _ ht)
  exact hp o ho ⟨t, ht, hst.reach (root_lt hs hroot) (owner_lt hs hz ho) hto⟩

theorem Open.setField {name : Name} {b : Borrow} {bs : List Borrow} {r : Option Nat} {fs : List Field}
    (ho : s.Open same (.setField name)) (hb : s.held = b :: bs) (hh : s.hand = v :: rest)
    (hz : s.get b.place = some (.record r)) (hfs : fieldsOf s.heap r = some fs)
    (hfalse : s.sameField same r name v = some false) : (∀ o, b.place.owner = some o → ¬ LeadsTo s.heap v o) ∧
      ∀ g, fs.find? (fun g => g.name = name) = some g → g.policy = .link → ¬ LeadsTo s.heap v g.cell := by
  have hinto : s.storesInto same (.setField name) =
      match fs.find? (fun g => g.name = name) with
      | some g => if g.policy = .link then some (g.cell, v) else b.place.owner.map (·, v)
      | none => b.place.owner.map (·, v) := by
    simp only [State.storesInto, hb, hh, hz, hfs, hfalse, bind_eq_bind, Option.bind_some]
    rfl
  have hlink : ∀ g, fs.find? (fun g => g.name = name) = some g → g.policy = .link → ¬ LeadsTo s.heap v g.cell := by
    intro g hg hl
    rw [hg] at hinto
    dsimp only at hinto
    rw [if_pos hl] at hinto
    exact ho _ _ hinto
  refine ⟨fun o howner hlo => ?_, hlink⟩
  by_cases hcase : ∃ g, fs.find? (fun g => g.name = name) = some g ∧ g.policy = .link
  · -- the block of the place leads to the cell
    obtain ⟨g, hg, hl⟩ := hcase
    obtain ⟨t, ht, hto⟩ := hlo
    refine hlink g hg hl ⟨t, ht, hto.trans ?_⟩
    cases r with
    | none =>
      cases hfs
      cases hg
    | some f =>
      refine .head (edge_get hz howner (b := f) (by rw [targets_record]; simp)) (.single ?_)
      exact ⟨_, fieldsOf_some.mp hfs, List.mem_map_of_mem (List.mem_of_find?_eq_some hg)⟩
  · refine ho o v ?_ hlo
    rw [hinto]
    split
    · next g hg =>
      rw [if_neg (fun hl => hcase ⟨g, hg, hl⟩), howner]
      rfl
    · rw [howner]
      rfl

theorem Open.setIndex {i : Int} {b : Borrow} {bs : List Borrow} {items : List (Val α)} {k : Nat}
    (ho : s.Open same (.setIndex i)) (hb : s.held = b :: bs) (hh : s.hand = v :: rest)
    (hz : s.get b.place = some (.array a)) (hi : itemsOf s.heap a = some items) (hk : itemAt items.length i = some k)
    (hfalse : s.sameItem same items k v = some false) : ∀ o, b.place.owner = some o → ¬ LeadsTo s.heap v o := by
  intro o howner
  refine ho o v ?_
  simp only [State.storesInto, hb, hh, hz, hi, hk, hfalse, howner, bind_eq_bind, Option.bind_some]
  rfl

theorem Stays.discarded {h : Store α} {r : List (Val α)} (ha : h.Acyclic → s.heap.Acyclic)
    (hs : Sound ({ s with hand := r } : State α) v.targets) (hd : s.discard r v = some s') : Stays h s' :=
  ⟨discard_sound (X := []) (by rw [append_nil]; exact hs) hd, fun hacyclic => discard_acyclic (ha hacyclic) hd⟩

theorem acyclic_copied {h : Store α} (ha : h.Acyclic) (v : Val α) : (valueCopy h v).Acyclic :=
  ha.mono (fun a c hac => by
    obtain ⟨y, hy, hc⟩ := hac
    rw [valueCopy, retainAll_obj] at hy
    exact ⟨y, hy, hc⟩)

theorem write_stays (hs : Sound s []) (honce : FreesOnce s op) (ho : s.Open same op) (hd : s.write same op = some s') :
    Stays s.heap s' := by
  cases op with
  | assign name =>
    simp only [write] at hd
    split at hd
    · next v rest hh =>
      obtain ⟨equal, _, hd⟩ := bind_eq_some_iff.mp hd
      split at hd
      · exact .discarded id (hs.hand hh) hd
      · exact ⟨envSet_sound (hs.hand hh) hd, fun ha => envSet_acyclic (s := { s with hand := rest }) ha hd⟩
    · cases hd
  | assignThis =>
    simp only [write] at hd
    split at hd
    · next v rest hh =>
      obtain ⟨h1, hf, hd⟩ := bind_eq_some_iff.mp hd
      have hv : v.targets = [] := by simpa only [FreesOnce, hh] using honce
      have e1 := valueFree_exact (R := ({ s with hand := rest } : State α).roots) (hs.hand hh) hf
      refine .discarded (s := { s with heap := h1 }) (fun ha => acyclic_of_release ha hf) ?_ hd
      rw [hv]
      exact e1
    · cases hd
  | setField name =>
    simp only [write] at hd
    split at hd
    · next b bs v rest hb hh =>
      obtain ⟨z, hz, hd⟩ := bind_eq_some_iff.mp hd
      split at hd
      · next r =>
        obtain ⟨equal, heq, hd⟩ := bind_eq_some_iff.mp hd
        split at hd
        · exact .discarded (s := { s with held := bs }) id (hs.hand hh) hd
        · next hne =>
          have hfalse : s.sameField same r name v = some false := by simpa [hne] using heq
          obtain ⟨fs, hfs, hmatch⟩ := bind_eq_some_iff.mp hfalse
          have hs1 : Sound ({ s with hand := rest, held := bs } : State α) (v.targets ++ []) := by
            rw [append_nil]
            exact hs.hand hh
          obtain ⟨howner, hlink⟩ := Open.setField ho hb hh hz hfs hfalse
          exact ⟨recordSet_sound hs1 hz hd, fun ha => recordSet_acyclic hs1 ha hz hfs
            (fun o h => not_leadsTo (howner o h)) (fun g hg hl => not_leadsTo (hlink g hg hl)) hd⟩
      · exact .discarded (s := { s with held := bs }) id (hs.hand hh) hd
    · cases hd
  | setIndex i =>
    simp only [write] at hd
    split at hd
    · next b bs v rest hb hh =>
      have hfree : Sound ({ s with hand := rest, held := bs } : State α) v.targets := hs.hand hh
      obtain ⟨z, hz, hd⟩ := bind_eq_some_iff.mp hd
      split at hd
      · obtain ⟨items, hi, hd⟩ := bind_eq_some_iff.mp hd
        split at hd
        · exact .discarded (s := { s with held := bs }) id hfree hd
        · next k hk =>
          obtain ⟨equal, heq, hd⟩ := bind_eq_some_iff.mp hd
          split at hd
          · exact .discarded (s := { s with held := bs }) id hfree hd
          · next hne =>
            have hfalse : s.sameItem same items k v = some false := by simpa [hne] using heq
            obtain ⟨⟨s1, a1⟩, h1, hd⟩ := bind_eq_some_iff.mp hd
            obtain ⟨h2, h3, hd⟩ := bind_eq_some_iff.mp hd
            cases hd
            have hs0 : Sound ({ s with hand := rest, held := bs } : State α) (v.targets ++ []) := by
              rw [append_nil]
              exact hfree
            have hs1 := detachArray_sound hs0 hz h1
            rw [append_nil] at hs1
            exact ⟨storeSet_exact (R := s1.roots) hs1 h3, fun ha => storeSet_acyclic (h := s1.heap)
              ((detachArray_stands hs0 hz h1).1.acyclic ha)
              (detached_free hs0 hz h1 (Open.setIndex (s := s) ho hb hh hz hi hk hfalse)) h3⟩
      · exact .discarded (s := { s with held := bs }) id hfree hd
    · cases hd
  | insertTo spot =>
    simp only [write] at hd
    split at hd
    · next b bs x rest hb hh =>
      have hfree : Sound ({ ({ s with held := bs } : State α) with hand := rest } : State α)
          ((.null : Val α).targets ++ x.targets) := hs.hand hh
      obtain ⟨z, hz, hd⟩ := bind_eq_some_iff.mp hd
      split at hd
      · obtain ⟨items, hi, hd⟩ := bind_eq_some_iff.mp hd
        split at hd
        · exact .replaced (s := { s with held := bs }) id hfree hd
        · next k hk =>
          refine ⟨editArray_sound (s := { s with hand := rest }) (hs.hand hh)
            (fun h a h' R he hd => storeInsert_exact he hd) (fun h a h' hd => storeInsert_live hd) hz hd, fun ha => ?_⟩
          have hinto : s.storesInto same (.insertTo spot) = b.place.owner.map (·, x) := by
            simp only [State.storesInto, hb, hh, hz, hi, hk, bind_eq_bind, Option.bind_some]
          obtain ⟨⟨s1, a1⟩, h1, hd⟩ := bind_eq_some_iff.mp hd
          obtain ⟨h2, h3, hd⟩ := bind_eq_some_iff.mp hd
          cases hd
          have hs0 : Sound ({ s with hand := rest } : State α) (x.targets ++ []) := by
            rw [append_nil]
            exact hs.hand hh
          exact acyclic_copied (storeInsert_acyclic ((detachArray_stands hs0 hz h1).1.acyclic ha)
            (detached_free hs0 hz h1 (fun o howner => ho o x (by rw [hinto, howner]; rfl))) h3) _
      · exact .replaced (s := { s with held := bs }) id hfree hd
    · cases hd
  | removeAt i =>
    simp only [write] at hd
    split at hd
    · next b bs hb =>
      obtain ⟨z, hz, hd⟩ := bind_eq_some_iff.mp hd
      split at hd
      · obtain ⟨items, hi, hd⟩ := bind_eq_some_iff.mp hd
        split at hd
        · cases hd
          exact ⟨Sound.push (s := { s with held := bs }) hs, id⟩
        · refine ⟨editArray_sound hs (fun h a h' R he hd => storeRemove_exact he hd)
            (fun h a h' hd => storeEdit_live hd) hz hd, fun ha => ?_⟩
          obtain ⟨⟨s1, a1⟩, h1, hd⟩ := bind_eq_some_iff.mp hd
          obtain ⟨h2, h3, hd⟩ := bind_eq_some_iff.mp hd
          cases hd
          exact acyclic_copied (storeRemove_acyclic ((detachArray_stands hs hz h1).1.acyclic ha) h3) _
      · cases hd
        exact ⟨Sound.push (s := { s with held := bs }) hs, id⟩
    · cases hd
  | _ => cases hd

/-- **A step keeps every count exact, and closes no loop.** -/
theorem step_stays (hs : Sound s []) (honce : FreesOnce s op) (ho : s.Open same op) (hd : step same s op = some s') :
    Stays s.heap s' := by
  unfold step at hd
  split at hd
  all_goals first
    | exact resolve_stays hs hd
    | exact write_stays hs honce ho hd
    | exact invoke_stays hs hd
    | exact evalExpr_stays hs hd

/-! ## Walks -/

theorem itemsIn_some {h : Store α} (hx : h.obj a = some x) : itemsIn h a = some x.items := by
  rw [itemsIn, hx]
  rfl

theorem edge_item {h : Store α} (hx : h.obj a = some x) (hv : v ∈ x.items) (ht : t ∈ v.targets) : h.Edge a t := by
  cases x with
  | store m c items => exact ⟨_, hx, List.mem_flatMap.mpr ⟨v, hv, ht⟩⟩
  | fields fs => cases hv
  | cell w => cases hv

theorem edge_field {h : Store α} (hx : h.obj a = some x) (hg : g ∈ x.fieldList) : h.Edge a g.cell := by
  cases x with
  | store m c items => cases hg
  | fields fs => exact ⟨_, hx, List.mem_map_of_mem hg⟩
  | cell w => cases hg

theorem edge_content {h : Store α} (hx : h.obj a = some x) (ht : t ∈ x.content.targets) : h.Edge a t := by
  cases x with
  | store m c items => cases ht
  | fields fs => cases ht
  | cell w => exact ⟨_, hx, ht⟩

def Within (h : Store α) (n : Nat) (v : Val α) : Prop := ∀ t ∈ v.targets, (∃ x, h.obj t = some x) ∧ h.rank t < n

theorem Within.calls {h : Store α} (hv : Live h v.targets) : Within h (State.calls h) v :=
  fun t ht => ⟨hv t ht, Nat.lt_succ_of_le (rank_le h t)⟩

section Walks
variable {h : Store α} {R : List Nat} (he : Exact h R []) (ha : h.Acyclic)
include he ha

theorem Within.item (hx : h.obj a = some x) (hn : h.rank a < n + 1) (hv : v ∈ x.items) : Within h n v := by
  intro t ht
  have hedge := edge_item hx hv ht
  have := ha.rank_lt he hedge
  exact ⟨he.edge_live hedge, by omega⟩

theorem Within.field {f : Nat} (hx : h.obj f = some x) (hn : h.rank f < n + 1) (hg : g ∈ x.fieldList) :
    ∃ y, h.obj g.cell = some y ∧ Within h n y.content := by
  have hedge := edge_field hx hg
  obtain ⟨y, hy⟩ := he.edge_live hedge
  refine ⟨y, hy, fun t ht => ?_⟩
  have hedge' := edge_content hy ht
  have h1 := ha.rank_lt he hedge
  have h2 := ha.rank_lt he hedge'
  exact ⟨he.edge_live hedge', by omega⟩

omit he ha in
theorem joined_some {β : Type} {p : β → Option (Option (List Byte))} : ∀ (l : List β)
    (_ : ∀ b ∈ l, ∃ t, p b = some t), ∃ t, joined p l = some t
  | [], _ => ⟨_, rfl⟩
  | [b], hl => hl b (mem_singleton.mpr rfl)
  | b :: c :: l, hl => by
    obtain ⟨t, ht⟩ := hl b (mem_cons_self ..)
    obtain ⟨u, hu⟩ := joined_some (c :: l) (fun d hd => hl d (mem_cons_of_mem _ hd))
    rw [joined, ht, hu]
    · cases t <;> cases u <;> exact ⟨_, rfl⟩
    · simp

/-- **The text walker comes back.** -/
theorem encodeValue_some (sp : Spelling α) (mode : RenderMode) : ∀ (n : Nat) {v : Val α} (_ : 0 < n)
    (_ : Within h n v), ∃ t, encodeValue sp mode n h v = some t
  | 0, _, hn, _ => absurd hn (lt_irrefl 0)
  | n + 1, v, _, hv => by
    have hpos : ∀ a x, h.obj a = some x → h.rank a < n + 1 → 0 < n := by
      intro a x hx hr
      have := rank_pos he hx
      omega
    cases v with
    | null | unknown | leaf | bound => exact ⟨_, by rw [encodeValue]⟩
    | array a =>
      obtain ⟨⟨x, hx⟩, hr⟩ := hv a (mem_singleton.mpr rfl)
      obtain ⟨t, ht⟩ := joined_some x.items (p := encodeValue sp mode n h) (fun w hw =>
        encodeValue_some sp mode n (hpos a x hx hr) (Within.item he ha hx hr hw))
      rw [encodeValue, itemsIn_some hx]
      exact ⟨_, by rw [bind_eq_bind, Option.bind_some, ht]; rfl⟩
    | record f =>
      cases f with
      | none => exact ⟨_, by rw [encodeValue]; rfl⟩
      | some f =>
        obtain ⟨⟨x, hx⟩, hr⟩ := hv f (mem_singleton.mpr rfl)
        obtain ⟨t, ht⟩ := joined_some x.fieldList (p := encodeField sp (encodeValue sp mode n h) h) (fun g hg => by
          obtain ⟨y, hy, hw⟩ := Within.field he ha hx hr hg
          obtain ⟨t, ht⟩ := encodeValue_some sp mode n (hpos f x hx hr) hw
          unfold encodeField contentIn
          rw [hy]
          exact ⟨_, by rw [map_some, bind_eq_bind, Option.bind_some, ht]; rfl⟩)
        rw [encodeValue, fieldsIn, hx]
        exact ⟨_, by rw [map_some, bind_eq_bind, Option.bind_some, ht]; rfl⟩

omit he ha in
theorem allOf_some {p : Val α → Val α → Option Bool} : ∀ (l m : List (Val α))
    (_ : ∀ v ∈ l, ∀ w ∈ m, ∃ b, p v w = some b), ∃ b, allOf p l m = some b
  | [], _, _ => ⟨true, by rw [allOf]; simp⟩
  | _ :: _, [], _ => ⟨true, by rw [allOf]; simp⟩
  | v :: l, w :: m, hl => by
    obtain ⟨b, hb⟩ := hl v (mem_cons_self ..) w (mem_cons_self ..)
    obtain ⟨c, hc⟩ := allOf_some l m (fun v hv w hw => hl v (mem_cons_of_mem _ hv) w (mem_cons_of_mem _ hw))
    rw [allOf, hb, bind_eq_bind, Option.bind_some]
    cases b
    · exact ⟨false, rfl⟩
    · exact ⟨c, by rw [if_pos rfl]; exact hc⟩

omit he ha in
theorem fieldsEqual_some {p : Val α → Val α → Option Bool} (m : List Field)
    (hm : ∀ g ∈ m, ∃ y, h.obj g.cell = some y) : ∀ (l : List Field)
    (_ : ∀ f ∈ l, ∃ x, h.obj f.cell = some x ∧ ∀ g ∈ m, ∀ y, h.obj g.cell = some y →
      ∃ b, p x.content y.content = some b), ∃ b, fieldsEqual h p m l = some b
  | [], _ => ⟨true, rfl⟩
  | f :: l, hl => by
    obtain ⟨x, hx, hp⟩ := hl f (mem_cons_self ..)
    obtain ⟨c, hc⟩ := fieldsEqual_some m hm l (fun f hf => hl f (mem_cons_of_mem _ hf))
    rw [fieldsEqual]
    split
    · exact ⟨false, rfl⟩
    · next g hg =>
      have hg := List.mem_of_find?_eq_some hg
      obtain ⟨y, hy⟩ := hm g hg
      obtain ⟨b, hb⟩ := hp g hg y hy
      rw [contentIn, contentIn, hx, hy]
      simp only [map_some, bind_eq_bind, Option.bind_some, hb]
      cases b
      · exact ⟨false, rfl⟩
      · exact ⟨c, by rw [if_pos rfl]; exact hc⟩

/-- **The comparison comes back.** -/
theorem valueStorageEqual_some (same : α → α → Bool) : ∀ (n : Nat) {v w : Val α} (_ : 0 < n) (_ : Within h n v)
    (_ : Live h w.targets), ∃ b, valueStorageEqual same n h v w = some b
  | 0, _, _, hn, _, _ => absurd hn (lt_irrefl 0)
  | n + 1, v, w, _, hv, hw => by
    have hpos : ∀ a x, h.obj a = some x → h.rank a < n + 1 → 0 < n := by
      intro a x hx hr
      have := rank_pos he hx
      omega
    unfold valueStorageEqual
    split
    · exact ⟨_, rfl⟩
    · exact ⟨_, rfl⟩
    · exact ⟨_, rfl⟩
    · exact ⟨_, rfl⟩
    · exact ⟨_, rfl⟩
    · exact ⟨_, rfl⟩
    · next a b =>
      obtain ⟨⟨x, hx⟩, hr⟩ := hv a (mem_singleton.mpr rfl)
      obtain ⟨y, hy⟩ := hw b (mem_singleton.mpr rfl)
      split
      · exact ⟨_, rfl⟩
      · rw [itemsIn_some hx, itemsIn_some hy]
        simp only [bind_eq_bind, Option.bind_some]
        split
        · refine allOf_some _ _ (fun v hv w hw => ?_)
          exact valueStorageEqual_some same n (hpos a x hx hr) (Within.item he ha hx hr hv)
            (fun t ht => he.edge_live (edge_item hy hw ht))
        · exact ⟨_, rfl⟩
    · next f g =>
      have hright : ∃ m, fieldsIn h g = some m ∧ ∀ d ∈ m, ∃ y, h.obj d.cell = some y := by
        cases g with
        | none => exact ⟨[], rfl, by simp⟩
        | some g =>
          obtain ⟨y, hy⟩ := hw g (mem_singleton.mpr rfl)
          exact ⟨y.fieldList, by rw [fieldsIn, hy]; rfl, fun d hd => he.edge_live (edge_field hy hd)⟩
      obtain ⟨m, hm, hml⟩ := hright
      have hleft : ∃ l, fieldsIn h f = some l ∧ ∀ d ∈ l, 0 < n ∧ ∃ x, h.obj d.cell = some x ∧ Within h n x.content := by
        cases f with
        | none => exact ⟨[], rfl, by simp⟩
        | some f =>
          obtain ⟨⟨x, hx⟩, hr⟩ := hv f (mem_singleton.mpr rfl)
          exact ⟨x.fieldList, by rw [fieldsIn, hx]; rfl, fun d hd => ⟨hpos f x hx hr, Within.field he ha hx hr hd⟩⟩
      obtain ⟨l, hl, hll⟩ := hleft
      rw [hl, hm]
      simp only [bind_eq_bind, Option.bind_some]
      split
      · refine fieldsEqual_some m hml l (fun d hd => ?_)
        obtain ⟨hn, x, hx, hwith⟩ := hll d hd
        refine ⟨x, hx, fun g _ y hy => valueStorageEqual_some same n hn hwith (fun t ht => ?_)⟩
        exact he.edge_live (edge_content hy ht)
      · exact ⟨_, rfl⟩
    · exact ⟨_, rfl⟩

end Walks

/-! ## Runs -/

/-- The values a program holds. -/
def State.values (s : State α) : List (Val α) := s.symbols.map Symbol.value ++ s.hand

theorem values_roots (hv : v ∈ s.values) (ht : t ∈ v.targets) : t ∈ s.roots := by
  rcases List.mem_append.mp hv with hv | hv
  · obtain ⟨x, hx, rfl⟩ := List.mem_map.mp hv
    exact mem_append_left _ (List.mem_flatMap.mpr ⟨x, hx, ht⟩)
  · exact List.mem_append_right _ (List.mem_flatMap.mpr ⟨v, hv, ht⟩)

/-- No block is reached from itself, and the walks of what the program holds come back. -/
structure State.Walkable (same : α → α → Bool) (s : State α) : Prop where
  acyclic : s.heap.Acyclic
  encode : ∀ sp mode, ∀ v ∈ s.values, ∃ t, encodeValue sp mode (State.calls s.heap) s.heap v = some t
  equal : ∀ v ∈ s.values, ∀ w ∈ s.values, ∃ b, valueStorageEqual same (State.calls s.heap) s.heap v w = some b
  free : ∀ v ∈ s.values, ∃ h, valueFree s.heap v = some h

theorem free_some (hs : Sound s []) (hv : v ∈ s.values) : ∃ h, valueFree s.heap v = some h := by
  obtain ⟨l, m, hlm⟩ : ∃ l m, s.values = l ++ v :: m := List.append_of_mem hv
  refine release_some (R := (l ++ m).flatMap Val.targets) _ (Exact.roots hs (fun c => ?_)) le_rfl
  have h1 : s.roots.count c = (s.values.flatMap Val.targets).count c := by
    simp only [State.roots, State.values, List.flatMap_append, List.flatMap_map, count_append]
  rw [nil_append, h1, hlm]
  simp only [List.flatMap_append, flatMap_cons, count_append]
  omega

theorem Walkable.of_acyclic (hs : Sound s []) (ha : s.heap.Acyclic) : s.Walkable same where
  acyclic := ha
  encode sp mode _ hv := encodeValue_some hs ha sp mode _ (Nat.succ_pos _)
    (Within.calls (fun _ ht => Exact.live_root hs (values_roots hv ht)))
  equal _ hv _ hw := valueStorageEqual_some hs ha same _ (Nat.succ_pos _)
    (Within.calls (fun _ ht => Exact.live_root hs (values_roots hv ht)))
    (fun _ ht => Exact.live_root hs (values_roots hw ht))
  free _ hv := free_some hs hv

/-- A run whose steps free nothing twice and close no loop. -/
def Careful (same : α → α → Bool) (s : State α) : List (Op α) → Prop
  | [] => True
  | op :: ops => (FreesOnce s op ∧ (s.Plain op ∨ s.Open same op)) ∧
      match step same s op with
      | some s' => Careful same s' ops
      | none => True

theorem run_sound (same : α → α → Bool) : ∀ (ops : List (Op α)) {s s' : State α} (_ : Sound s [])
    (_ : s.heap.Acyclic) (_ : Careful same s ops) (_ : run same s ops = some s'),
    Sound s' [] ∧ s'.heap.Acyclic
  | [], s, s', hs, ha, _, hr => by
    cases hr
    exact ⟨hs, ha⟩
  | op :: ops, s, s', hs, ha, hc, hr => by
    obtain ⟨s1, h1, hr⟩ := bind_eq_some_iff.mp hr
    obtain ⟨⟨honce, hopen⟩, hc⟩ := hc
    rw [h1] at hc
    have ho : s.Open same op := hopen.elim (Open.of_plain hs) id
    obtain ⟨hs1, ha1⟩ := step_stays hs honce ho h1
    exact run_sound same ops hs1 (ha1 ha) hc hr

theorem init_acyclic : (init : State α).heap.Acyclic := by
  intro a hcyc
  obtain ⟨b, ⟨x, hx, _⟩, _⟩ := Relation.TransGen.head'_iff.mp hcyc
  cases hx

/-- **Values never become cyclic**: where no write of a run closes a loop, which along a path without links none does,
no block is reached from itself in any state of the run, and every walk of what the program holds comes back. -/
theorem values_acyclic (same : α → α → Bool) (ops : List (Op α)) (s : State α)
    (hc : Careful same State.init ops) (hr : run same State.init ops = some s) : s.Walkable same := by
  obtain ⟨hs, ha⟩ := run_sound same ops init_sound init_acyclic hc hr
  exact Walkable.of_acyclic hs ha

/-- `r = { a: nothing }` and `r.a = r`: the field holds a copy. -/
def selfCopy : List (Op Same.Value) :=
  [.nothing, .record [⟨text "a", .copy, none⟩], .assign (text "r"), .read (text "r"), .borrow (text "r"),
    .setField (text "a")]

theorem values_acyclic_selfCopy : ∃ s, run Same.storageEqual State.init selfCopy = some s ∧
    s.Walkable Same.storageEqual := by
  refine ⟨_, rfl, values_acyclic Same.storageEqual selfCopy _ ?_ rfl⟩
  have hnone : ∀ {s : State Same.Value} {op}, s.storesInto Same.storageEqual op = none →
      s.Plain op ∨ s.Open Same.storageEqual op := by
    intro s op h
    refine Or.inr (fun o v h' => ?_)
    rw [h] at h'
    cases h'
  exact ⟨⟨trivial, hnone rfl⟩, ⟨trivial, hnone rfl⟩, ⟨trivial, hnone rfl⟩, ⟨trivial, hnone rfl⟩, ⟨trivial, hnone rfl⟩,
    ⟨trivial, hnone rfl⟩, trivial⟩

/-- `r = { l (link): nothing }` and `r.l = r`. -/
def selfLink : List (Op Same.Value) :=
  [.nothing, .record [⟨text "l", .link, none⟩], .assign (text "r"), .read (text "r"), .borrow (text "r"),
    .setField (text "l")]

theorem encode_into {h : Store α} {f c : Nat} {w : Val α} (hf : h.obj f = some (.fields [g])) (hg : g.cell = c)
    (hc : h.obj c = some (.cell w)) {sp : Spelling α} {mode : RenderMode} (hw : encodeValue sp mode n h w = none) :
    encodeValue sp mode (n + 1) h (.record (some f)) = none := by
  rw [encodeValue, fieldsIn, hf]
  simp only [map_some, Obj.fieldList, bind_eq_bind, Option.bind_some, joined, encodeField, contentIn, hg, hc,
    Obj.content, hw, Option.bind_none]

theorem encode_loop {h : Store α} {f c : Nat} {g : Field} (hf : h.obj f = some (.fields [g])) (hg : g.cell = c)
    (hc : h.obj c = some (.cell (.record (some f)))) (sp : Spelling α) (mode : RenderMode) :
    ∀ n, encodeValue sp mode n h (.record (some f)) = none
  | 0 => rfl
  | n + 1 => encode_into hf hg hc (encode_loop hf hg hc sp mode n)

/-- The link's cell holds the record whose field it is, and the program a value that no walk comes back from. -/
theorem selfLink_loops : ∃ s, run Same.storageEqual State.init selfLink = some s ∧ ¬ s.heap.Acyclic ∧
    ∃ v ∈ s.values, ∀ sp mode n, encodeValue sp mode n s.heap v = none := by
  refine ⟨_, rfl, fun h => h 0 ?_, .record (some 2), List.mem_cons_self .., fun sp mode n => ?_⟩
  · exact .head ⟨_, rfl, List.mem_singleton.mpr rfl⟩ (.single ⟨_, rfl, List.mem_singleton.mpr rfl⟩)
  · cases n with
    | zero => rfl
    | succ n => exact encode_into (c := 0) rfl rfl rfl (encode_loop (f := 1) (c := 0) rfl rfl rfl sp mode n)

end Cow
end Gbasic
