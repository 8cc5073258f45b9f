import Gbasic.CowStep
/-!
# CowExact — every count is exact

What each function does to the counts: between two steps the count of every backing store, field array and cell is the
number of variables, values in the hand, items, fields and cells that name it.
-/
namespace Gbasic
namespace Cow

open Counted Counted.Heap
open Option (bind_eq_some_iff map_some)
open List (map_cons count_cons count_nil count_append append_nil map_append flatMap_cons nil_append)
open State (findInFrame setSymbol)
open Exact (retainAll release pay congr)

variable {α : Type}
variable {h h' : Store α} {R X N l : List Nat} {s s' : State α} {v x z w : Val α} {a i c f a' : Nat} {p : Place}
  {fs : List Field} {r r' : Option Nat} {op : Op α} {g : Field} {name : Name} {items : List (Val α)}

@[simp] theorem kids_store (m c : Nat) (items : List (Val α)) :
    kids (Obj.store m c items) = items.flatMap Val.targets := rfl

@[simp] theorem kids_fields (fs : List Field) : kids (Obj.fields fs : Obj α) = fs.map Field.cell := rfl

@[simp] theorem kids_cell (v : Val α) : kids (Obj.cell v) = v.targets := rfl

@[simp] theorem targets_array (a : Nat) : (Val.array a : Val α).targets = [a] := rfl

@[simp] theorem targets_record (f : Option Nat) : (Val.record f : Val α).targets = f.toList := by
  cases f <;> rfl

/-! ## What is read is live -/

theorem itemsOf_some (hi : itemsOf h a = some items) : ∃ m c, h.obj a = some (.store m c items) := by
  unfold itemsOf at hi
  split at hi
  · next m c l ho =>
    cases hi
    exact ⟨m, c, ho⟩
  · cases hi

theorem cellOf_some : cellOf h c = some v ↔ h.obj c = some (.cell v) := by
  unfold cellOf
  constructor
  · intro hc
    split at hc
    · next w ho =>
      cases hc
      exact ho
    · cases hc
  · intro ho
    rw [ho]

theorem fieldsOf_some : fieldsOf h (some f) = some fs ↔ h.obj f = some (.fields fs) := by
  simp only [fieldsOf]
  constructor
  · intro hf
    split at hf
    · next gs ho =>
      cases hf
      exact ho
    · cases hf
  · intro ho
    rw [ho]

def Live (h : Store α) (l : List Nat) : Prop := ∀ a ∈ l, ∃ x, h.obj a = some x

theorem Live.of_exact (he : Exact h R []) (hl : ∀ a ∈ l, a ∈ R) : Live h l :=
  fun a ha => he.live_root (hl a ha)

theorem Live.of_item (he : Exact h R []) (hi : itemsOf h a = some items) (hv : items[i]? = some v) :
    Live h v.targets := by
  obtain ⟨m, c, ho⟩ := itemsOf_some hi
  exact fun b hb => he.live_kid ho (List.mem_flatMap.mpr ⟨v, List.mem_of_getElem? hv, hb⟩)

theorem Live.of_cell (he : Exact h R []) (hv : cellOf h c = some v) : Live h v.targets :=
  fun _ hb => he.live_kid (cellOf_some.mp hv) hb

theorem Live.of_field (he : Exact h R []) {f : Option Nat} (hf : fieldsOf h f = some fs) (hg : g ∈ fs) :
    ∃ x, h.obj g.cell = some x := by
  cases f with
  | none =>
    cases hf
    cases hg
  | some f => exact he.live_kid (fieldsOf_some.mp hf) (List.mem_map_of_mem hg)

/-! ## Copying, freeing, building -/

theorem valueCopy_exact (he : Exact h R N) (hv : Live h v.targets) : Exact (valueCopy h v) (v.targets ++ R) N :=
  retainAll _ he hv

theorem valueFree_exact (he : Exact h (v.targets ++ R) N) (hf : valueFree h v = some h') : Exact h' R N :=
  release _ he hf

theorem valueArray_exact (he : Exact h (items.flatMap Val.targets ++ R) N) :
    Exact (valueArray h items).1 ((valueArray h items).2.targets ++ R) N :=
  Exact.alloc (x := Obj.store 0 items.length items) he

theorem valueRecord_exact (he : Exact h (fs.map Field.cell ++ R) N) :
    Exact (valueRecord h fs).1 ((valueRecord h fs).2.targets ++ R) N := by
  unfold valueRecord
  split
  · next hn =>
    rw [hn] at he
    exact he
  · exact Exact.alloc (x := Obj.fields fs) he

/-! ## Detaching -/

theorem detach_exact {x y : Obj α} (he : Exact h R []) (hx : h.obj a = some x) (hpos : 0 < h.refs a)
    (hk : kids y = kids x) :
    Exact (((h.retainAll (kids x)).alloc y).drop a) ((h.retainAll (kids x)).next :: R) [a] := by
  have h1 := retainAll (kids x) he (fun c hc => he.live_kid hx hc)
  have h2 := Exact.alloc (x := y) (by rw [hk]; exact h1)
  have hne : a ≠ (h.retainAll (kids x)).next := by
    rw [retainAll_next]
    exact Nat.ne_of_lt (he.live_lt hx)
  have hx' : ((h.retainAll (kids x)).alloc y).obj a = some x := by
    rw [alloc_obj, if_neg hne, retainAll_obj, hx]
  refine Exact.drop (h2.owe [a]) hx' ?_
  rw [alloc_refs, if_neg hne]
  exact lt_of_lt_of_le hpos (le_retainAll_refs _ _ _)

theorem arrayEnsureUnique_exact (he : Exact h R []) (hpos : 0 < h.refs a) (hd : arrayEnsureUnique h a = some (h', a')) :
    Exact h' (a' :: R) [a] := by
  unfold arrayEnsureUnique at hd
  split at hd
  · next m c items ho =>
    split at hd
    · cases hd
      exact he.owe [a]
    · cases hd
      exact detach_exact he ho hpos rfl
  · cases hd

theorem recordEnsureUnique_exact (he : Exact h R []) (hpos : ∀ f, r = some f → 0 < h.refs f)
    (hd : recordEnsureUnique h r = some (h', r')) : Exact h' (r'.toList ++ R) r.toList := by
  cases r with
  | none =>
    cases hd
    exact he
  | some f =>
    unfold recordEnsureUnique at hd
    dsimp only at hd
    split at hd
    · next fs ho =>
      split at hd
      · cases hd
        exact he.owe [f]
      · cases hd
        exact detach_exact he ho (hpos f rfl) rfl
    · cases hd

theorem map_set_count {k : Field} (hi : fs[i]? = some g) (c : Nat) :
    ((fs.set i k).map Field.cell).count c + [g.cell].count c = (fs.map Field.cell).count c + [k.cell].count c := by
  induction fs generalizing i with
  | nil => cases hi
  | cons f fs ih =>
    cases i with
    | zero =>
      cases hi
      simp only [List.set_cons_zero, map_cons, count_cons, count_nil]
      omega
    | succ i =>
      have h1 := ih hi
      simp only [List.set_cons_succ, map_cons, count_cons, count_nil] at h1 ⊢
      omega

theorem repoint_exact {c' : Nat} {k : Field} (ho : h.obj f = some (.fields fs)) (hi : fs[i]? = some g)
    (hc : k.cell = c') (he : Exact h (c' :: R) N) : Exact (h.store f (.fields (fs.set i k))) (g.cell :: R) N := by
  have h1 := Exact.store (x := Obj.fields (fs.set i k)) (R := g.cell :: R) (N := fs.map Field.cell ++ N) ho
    (he.congr (fun a => by
    have h2 := map_set_count (k := k) hi a
    rw [hc] at h2
    simp only [kids_fields, count_append, count_cons, count_nil] at h2 ⊢
    omega))
  exact h1.pay

theorem cellForkForWrite_exact (he : Exact h R []) (ho : h.obj f = some (.fields fs)) (hi : fs[i]? = some g)
    (hd : cellForkForWrite h f fs i g = some (h', c)) : Exact h' R [] := by
  unfold cellForkForWrite at hd
  split at hd
  · cases hd
    exact he
  · split at hd
    · next hrefs =>
      obtain ⟨v, hv, hd⟩ := bind_eq_some_iff.mp hd
      cases hd
      have hv := cellOf_some.mp hv
      have h1 := detach_exact (y := Obj.cell v) he hv (by omega) rfl
      have hlt := he.live_lt ho
      have ho' : (((valueCopy h v).alloc (.cell v)).drop g.cell).obj f = some (.fields fs) := by
        rw [drop_obj, alloc_obj, if_neg (by unfold valueCopy; rw [retainAll_next]; omega)]
        unfold valueCopy
        rw [retainAll_obj, ho]
      have h2 := repoint_exact (k := { g with cell := (valueCopy h v).next }) ho' hi rfl h1
      exact pay (l := [g.cell]) h2
    · cases hd
      exact he

/-! ## Writing -/

theorem cellWrite_exact {h'' : Store α} (hv : cellOf h c = some v) (he : Exact h (x.targets ++ R) [])
    (hf : valueFree h v = some h') (hw : cellOf h' c = some w) (hs : h'.store c (.cell x) = h'') : Exact h'' R [] := by
  have h1 := release_obj _ hf (cellOf_some.mp hw)
  rw [cellOf_some.mp hv] at h1
  cases h1
  have h2 := valueFree_exact (he.owe v.targets) hf
  rw [append_nil] at h2
  have h3 := Exact.store (x := Obj.cell x) (cellOf_some.mp hw) h2
  rw [hs] at h3
  exact pay (l := v.targets) (by rw [append_nil]; exact h3)

theorem fieldSet_exact (he : Exact h (x.targets ++ R) []) (ho : h.obj f = some (.fields fs))
    (hd : fieldSet h f fs name x = some h') : Exact h' R [] := by
  unfold fieldSet at hd
  split at hd
  · next i hs =>
    obtain ⟨g, hg, hd⟩ := bind_eq_some_iff.mp hd
    split at hd
    · obtain ⟨h1, hr, hd⟩ := bind_eq_some_iff.mp hd
      obtain ⟨fs', hf, hd⟩ := bind_eq_some_iff.mp hd
      cases hd
      have hf := fieldsOf_some.mp hf
      have hsame := release_obj _ hr hf
      rw [ho] at hsame
      cases hsame
      have e1 := release _ (w := [g.cell]) (he.owe [g.cell]) hr
      have e2 := Exact.alloc (x := Obj.cell x) e1
      have hlt := e1.live_lt hf
      have ho' : (h1.alloc (.cell x)).obj f = some (.fields fs) := by rw [alloc_obj, if_neg (by omega), hf]
      have e3 := repoint_exact (k := { g with cell := h1.next }) ho' hg rfl e2
      exact pay (l := [g.cell]) e3
    · obtain ⟨v, hv, hd⟩ := bind_eq_some_iff.mp hd
      obtain ⟨h1, hf, hd⟩ := bind_eq_some_iff.mp hd
      obtain ⟨w, hw, hd⟩ := bind_eq_some_iff.mp hd
      cases hd
      exact cellWrite_exact hv he hf hw rfl
  · cases hd
    have e1 := Exact.alloc (x := Obj.cell x) he
    have hlt := he.live_lt ho
    have ho' : (h.alloc (.cell x)).obj f = some (.fields fs) := by rw [alloc_obj, if_neg (by omega), ho]
    have e2 := Exact.store (x := Obj.fields (fs ++ [⟨name, .copy, none, h.next⟩])) (R := R)
      (N := kids (Obj.fields fs : Obj α)) ho' (e1.congr (fun a => by
        simp only [kids_fields, map_append, map_cons, List.map_nil, count_append, count_cons,
          count_nil]
        omega))
    exact pay (l := kids (Obj.fields fs : Obj α)) (by rw [append_nil]; exact e2)

theorem flatMap_insert_count {l : List (Val α)} (c : Nat) : ((l.take i ++ x :: l.drop i).flatMap Val.targets).count c =
      (l.flatMap Val.targets).count c + x.targets.count c := by
  conv_rhs => rw [← List.take_append_drop i l]
  simp only [List.flatMap_append, flatMap_cons, count_append]
  omega

theorem storeInsert_exact (he : Exact h (x.targets ++ R) []) (hd : storeInsert h a i x = some h') : Exact h' R [] := by
  unfold storeInsert at hd
  split at hd
  · next moves capacity items ho =>
    cases hd
    have e2 := Exact.store
      (x := Obj.store (reserve moves capacity (items.length + 1)).1 (reserve moves capacity (items.length + 1)).2
        (items.take i ++ x :: items.drop i))
      (R := R) (N := items.flatMap Val.targets) ho (he.congr (fun c => by
        have h1 := flatMap_insert_count (l := items) (i := i) (x := x) c
        simp only [kids_store, count_append, count_nil]
        omega))
    exact pay (l := items.flatMap Val.targets) (by rw [append_nil]; exact e2)
  · cases hd

theorem storeEdit_exact {edit : List (Val α) → List (Val α)}
    (hedit : ∀ items v, items[i]? = some v → ∀ c, ((edit items).flatMap Val.targets).count c + v.targets.count c =
      (items.flatMap Val.targets).count c + l.count c)
    (he : Exact h (l ++ R) []) (hd : storeEdit h a i edit = some h') : Exact h' R [] := by
  unfold storeEdit at hd
  obtain ⟨items, hi, hd⟩ := bind_eq_some_iff.mp hd
  obtain ⟨v, hv, hd⟩ := bind_eq_some_iff.mp hd
  obtain ⟨h1, hf, hd⟩ := bind_eq_some_iff.mp hd
  split at hd
  · next moves capacity items' ho =>
    cases hd
    obtain ⟨m, c, hi⟩ := itemsOf_some hi
    have hsame := release_obj _ hf ho
    rw [hi] at hsame
    cases hsame
    have e1 := valueFree_exact (he.owe v.targets) hf
    rw [append_nil] at e1
    have e2 := Exact.store (x := Obj.store moves capacity (edit items)) (R := R) (N := items.flatMap Val.targets) ho
      (e1.congr (fun b => by
        have h2 := hedit items v hv b
        simp only [kids_store, count_append]
        omega))
    exact pay (l := items.flatMap Val.targets) (by rw [append_nil]; exact e2)
  · cases hd

theorem flatMap_set_count : ∀ {items : List (Val α)} {i : Nat} {v : Val α} (x : Val α) (_ : items[i]? = some v)
    (c : Nat), ((items.set i x).flatMap Val.targets).count c + v.targets.count c =
      (items.flatMap Val.targets).count c + x.targets.count c
  | [], _, _, _, hi, _ => by cases hi
  | w :: items, 0, v, x, hi, c => by
    cases hi
    simp only [List.set_cons_zero, flatMap_cons, count_append]
    omega
  | w :: items, i + 1, v, x, hi, c => by
    have h1 := flatMap_set_count x (show items[i]? = some v from hi) c
    simp only [List.set_cons_succ, flatMap_cons, count_append]
    omega

theorem flatMap_erase_count : ∀ {items : List (Val α)} {i : Nat} {v : Val α} (_ : items[i]? = some v) (c : Nat),
    ((items.eraseIdx i).flatMap Val.targets).count c + v.targets.count c = (items.flatMap Val.targets).count c
  | [], _, _, hi, _ => by cases hi
  | w :: items, 0, v, hi, c => by
    cases hi
    simp only [List.eraseIdx_cons_zero, flatMap_cons, count_append]
    omega
  | w :: items, i + 1, v, hi, c => by
    have h1 := flatMap_erase_count (show items[i]? = some v from hi) c
    simp only [List.eraseIdx_cons_succ, flatMap_cons, count_append]
    omega

theorem storeSet_exact (he : Exact h (x.targets ++ R) []) (hd : storeSet h a i x = some h') : Exact h' R [] :=
  storeEdit_exact (fun _ _ hv c => flatMap_set_count x hv c) he hd

theorem storeRemove_exact (he : Exact h R []) (hd : storeRemove h a i = some h') : Exact h' R [] :=
  storeEdit_exact (l := []) (fun _ _ hv c => by rw [flatMap_erase_count hv c, count_nil, Nat.add_zero]) he hd

/-! ## Building records, deriving -/

theorem Live.builds (hl : Live h l) (hg : Builds h h') : Live h' l :=
  fun a ha => (hl a ha).imp (fun x hx => hg.grows a x hx)

theorem Exact.roots {R' : List Nat} (he : Exact h R N) (hR : ∀ a, R.count a = R'.count a) : Exact h R' N :=
  he.congr (fun a => by rw [hR a])

theorem literalFields_exact {R : List Nat} : ∀ (l : List (Decl × Val α)) {h : Store α}
    (_ : Exact h (l.flatMap (fun x => x.2.targets) ++ R) []),
    Exact (literalFields h l).1 ((literalFields h l).2.map Field.cell ++ R) []
  | [], _, he => he
  | (d, v) :: l, h, he => by
    have h1 : Exact h (kids (Obj.cell v) ++ (l.flatMap (fun x => x.2.targets) ++ R)) [] :=
      Exact.roots he (fun a => by simp only [flatMap_cons, count_append, kids_cell]; omega)
    have h2 := literalFields_exact (R := h.next :: R) l (h1.alloc.perm List.perm_middle.symm)
    exact h2.perm List.perm_middle

theorem literalFields_builds {R : List Nat} : ∀ (l : List (Decl × Val α)) {h : Store α}
    (_ : Exact h (l.flatMap (fun x => x.2.targets) ++ R) []), Builds h (literalFields h l).1
  | [], h, _ => Builds.refl h
  | (d, v) :: l, h, he => by
    have h1 : Exact h (kids (Obj.cell v) ++ (l.flatMap (fun x => x.2.targets) ++ R)) [] :=
      Exact.roots he (fun a => by simp only [flatMap_cons, count_append, kids_cell]; omega)
    have h2 := literalFields_builds (R := h.next :: R) l (h1.alloc.perm List.perm_middle.symm)
    exact (Builds.alloc h1).trans h2

def Derives (f : Deriving α → Val α → Option (Deriving α × Val α)) : Prop :=
  ∀ R d v d' v', Exact d.1 (d.2.flatMap Val.targets ++ R) [] → Live d.1 v.targets → f d v = some (d', v') →
    Exact d'.1 (v'.targets ++ (d'.2.flatMap Val.targets ++ R)) [] ∧ Builds d.1 d'.1

theorem deriveItems_exact {f : Deriving α → Val α → Option (Deriving α × Val α)} (hf : Derives f) :
    ∀ (l : List (Val α)) (R : List Nat) (d d' : Deriving α) (l' : List (Val α))
      (_ : Exact d.1 (d.2.flatMap Val.targets ++ R) []) (_ : ∀ v ∈ l, Live d.1 v.targets)
      (_ : deriveItems f d l = some (d', l')),
      Exact d'.1 (l'.flatMap Val.targets ++ (d'.2.flatMap Val.targets ++ R)) [] ∧ Builds d.1 d'.1
  | [], R, d, d', l', he, _, hd => by
    cases hd
    exact ⟨he, Builds.refl _⟩
  | v :: l, R, d, d', l', he, hl, hd => by
    obtain ⟨⟨d1, v1⟩, h1, hd⟩ := bind_eq_some_iff.mp hd
    obtain ⟨⟨d2, l2⟩, h2, hd⟩ := bind_eq_some_iff.mp hd
    simp only [Option.some.injEq, Prod.mk.injEq] at hd
    obtain ⟨rfl, rfl⟩ := hd
    obtain ⟨e1, g1⟩ := hf R d v d1 v1 he (hl v (List.mem_cons_self ..)) h1
    obtain ⟨e2, g2⟩ := deriveItems_exact hf l (v1.targets ++ R) d1 d2 l2
      (Exact.roots e1 (fun a => by simp only [count_append]; omega))
      (fun w hw => (hl w (List.mem_cons_of_mem _ hw)).builds g1) h2
    exact ⟨Exact.roots e2 (fun a => by simp only [flatMap_cons, count_append]; omega), g1.trans g2⟩

theorem deriveField_exact {f : Deriving α → Val α → Option (Deriving α × Val α)} {p : Store α → Val α → Option Bool}
    (hf : Derives f) {d d' : Deriving α} {src : Field} {out : List Field}
    (he : Exact d.1 (d.2.flatMap Val.targets ++ R) []) (hl : ∃ x, d.1.obj src.cell = some x)
    (hd : deriveField p f d src = some (d', out)) :
    Exact d'.1 (out.map Field.cell ++ (d'.2.flatMap Val.targets ++ R)) [] ∧ Builds d.1 d'.1 := by
  obtain ⟨x, hx⟩ := hl
  unfold deriveField at hd
  split at hd
  · cases hd
    exact ⟨he, Builds.refl _⟩
  · cases hd
    exact ⟨he.retain hx, Builds.retain _ _⟩
  · split at hd
    · cases hd
      exact ⟨Exact.alloc (x := Obj.cell .null) he, Builds.alloc (x := Obj.cell .null) he⟩
    · next v rs _ hr =>
      cases hd
      rw [hr] at he
      have h1 : Exact d.1 (kids (Obj.cell v) ++ (rs.flatMap Val.targets ++ R)) [] :=
        Exact.roots he (fun a => by simp only [flatMap_cons, count_append, kids_cell]; omega)
      exact ⟨h1.alloc, Builds.alloc h1⟩
    · cases hd
  · obtain ⟨v, hv, hd⟩ := bind_eq_some_iff.mp hd
    obtain ⟨again, _, hd⟩ := bind_eq_some_iff.mp hd
    split at hd
    · obtain ⟨⟨d1, v1⟩, h1, hd⟩ := bind_eq_some_iff.mp hd
      cases hd
      obtain ⟨e1, g1⟩ := hf R d v d1 v1 he (Live.of_cell he hv) h1
      exact ⟨Exact.alloc (x := Obj.cell v1) e1, g1.trans (Builds.alloc (x := Obj.cell v1) e1)⟩
    · cases hd
      exact ⟨he.retain hx, Builds.retain _ _⟩

theorem deriveFields_exact {field : Deriving α → Field → Option (Deriving α × List Field)}
    (hf : ∀ R d src d' out, Exact d.1 (d.2.flatMap Val.targets ++ R) [] → (∃ x, d.1.obj src.cell = some x) →
      field d src = some (d', out) → Exact d'.1 (out.map Field.cell ++ (d'.2.flatMap Val.targets ++ R)) [] ∧
        Builds d.1 d'.1) :
    ∀ (l : List Field) (R : List Nat) (d d' : Deriving α) (out : List Field)
      (_ : Exact d.1 (d.2.flatMap Val.targets ++ R) []) (_ : ∀ g ∈ l, ∃ x, d.1.obj g.cell = some x)
      (_ : deriveFields field d l = some (d', out)),
      Exact d'.1 (out.map Field.cell ++ (d'.2.flatMap Val.targets ++ R)) [] ∧ Builds d.1 d'.1
  | [], R, d, d', out, he, _, hd => by
    cases hd
    exact ⟨he, Builds.refl _⟩
  | g :: l, R, d, d', out, he, hl, hd => by
    obtain ⟨⟨d1, o1⟩, h1, hd⟩ := bind_eq_some_iff.mp hd
    obtain ⟨⟨d2, o2⟩, h2, hd⟩ := bind_eq_some_iff.mp hd
    simp only [Option.some.injEq, Prod.mk.injEq] at hd
    obtain ⟨rfl, rfl⟩ := hd
    obtain ⟨e1, g1⟩ := hf R d g d1 o1 he (hl g (List.mem_cons_self ..)) h1
    obtain ⟨e2, g2⟩ := deriveFields_exact hf l (o1.map Field.cell ++ R) d1 d2 o2
      (Exact.roots e1 (fun a => by simp only [count_append]; omega))
      (fun w hw => (hl w (List.mem_cons_of_mem _ hw)).imp (fun x hx => g1.grows _ x hx)) h2
    exact ⟨Exact.roots e2 (fun a => by simp only [map_append, count_append]; omega), g1.trans g2⟩

theorem valueRecord_builds (he : Exact h (fs.map Field.cell ++ R) []) : Builds h (valueRecord h fs).1 := by
  unfold valueRecord
  split
  · exact Builds.refl h
  · exact Builds.alloc (x := Obj.fields fs) he

/-- **A derivation counts what it gives**, whatever the prototype. -/
theorem derive_exact : ∀ n, Derives (derive n : Deriving α → Val α → Option (Deriving α × Val α))
  | 0 => by
    intro R d v d' v' _ _ hd
    cases hd
  | n + 1 => by
    have ih := derive_exact n
    intro R d v d' v' he hl hd
    cases v with
    | record f =>
      rw [derive] at hd
      obtain ⟨fs, hfs, hd⟩ := bind_eq_some_iff.mp hd
      obtain ⟨⟨d1, out⟩, h1, hd⟩ := bind_eq_some_iff.mp hd
      cases hd
      obtain ⟨e1, g1⟩ := deriveFields_exact (fun R d src d' out he hl hd => deriveField_exact ih he hl hd) fs R d d1 out
        he (fun g hg => Live.of_field he hfs hg) h1
      exact ⟨valueRecord_exact e1, g1.trans (valueRecord_builds e1)⟩
    | array a =>
      rw [derive] at hd
      obtain ⟨b, _, hd⟩ := bind_eq_some_iff.mp hd
      split at hd
      · obtain ⟨items, hi, hd⟩ := bind_eq_some_iff.mp hd
        obtain ⟨⟨d1, out⟩, h1, hd⟩ := bind_eq_some_iff.mp hd
        cases hd
        obtain ⟨e1, g1⟩ := deriveItems_exact ih items R d d1 out he (fun w hw => by
          obtain ⟨i, hi'⟩ := List.mem_iff_getElem?.mp hw
          exact Live.of_item he hi hi') h1
        exact ⟨valueArray_exact e1, g1.trans (Builds.alloc (x := Obj.store 0 out.length out) e1)⟩
      · cases hd
        exact ⟨valueCopy_exact he hl, Builds.retainAll _ _⟩
    | null | unknown | leaf | bound =>
      rw [derive] at hd
      · cases hd
        exact ⟨valueCopy_exact he hl, Builds.retainAll _ _⟩
      all_goals simp

theorem override_exact {wf : Field} (he : Exact h (r.toList ++ R) []) (hd : override h r wf = some (h', r')) :
    Exact h' (r'.toList ++ R) [] := by
  unfold override at hd
  obtain ⟨v, hv, hd⟩ := bind_eq_some_iff.mp hd
  have e1 := valueCopy_exact he (Live.of_cell he hv)
  have e2 := Exact.alloc (x := Obj.cell v) e1
  have hgrow := Builds.alloc (x := Obj.cell v) e1
  dsimp only at hd
  cases r with
  | none =>
    cases hd
    exact Exact.alloc (x := Obj.fields [⟨wf.name, wf.policy, wf.reset, (valueCopy h v).next⟩]) e2
  | some f =>
    obtain ⟨fs, hfs, hd⟩ := bind_eq_some_iff.mp hd
    have hf := hgrow.grows _ _ (fieldsOf_some.mp hfs)
    split at hd
    · next i hs =>
      obtain ⟨g, hg, hd⟩ := bind_eq_some_iff.mp hd
      obtain ⟨h1, hr, hd⟩ := bind_eq_some_iff.mp hd
      obtain ⟨fs', hf', hd⟩ := bind_eq_some_iff.mp hd
      cases hd
      have hf' := fieldsOf_some.mp hf'
      have hsame := release_obj _ hr hf'
      rw [hf] at hsame
      cases hsame
      have e3 := release _ (w := [g.cell]) (e2.owe [g.cell]) hr
      have e4 := repoint_exact (k := ⟨g.name, wf.policy, wf.reset, (valueCopy h v).next⟩) hf' hg rfl e3
      exact pay (l := [g.cell]) e4
    · cases hd
      have e3 := Exact.store (x := Obj.fields (fs ++ [⟨wf.name, wf.policy, wf.reset, (valueCopy h v).next⟩]))
        (R := f :: R) (N := kids (Obj.fields fs : Obj α)) hf (e2.congr (fun a => by
          simp only [kids_fields, map_append, map_cons, List.map_nil, count_append, count_cons,
            count_nil, Option.toList_some]
          omega))
      exact pay (l := kids (Obj.fields fs : Obj α)) (by rw [append_nil]; exact e3)

theorem overrideAll_exact {R : List Nat} : ∀ (l : List Field) {h h' : Store α} {r r' : Option Nat}
    (_ : Exact h (r.toList ++ R) []) (_ : overrideAll h r l = some (h', r')), Exact h' (r'.toList ++ R) []
  | [], h, h', r, r', he, hd => by
    cases hd
    exact he
  | wf :: l, h, h', r, r', he, hd => by
    obtain ⟨⟨h1, r1⟩, h2, hd⟩ := bind_eq_some_iff.mp hd
    exact overrideAll_exact l (override_exact he h2) hd

/-! ## Places -/

theorem setSymbol_count {frame : Nat} {name : Name} {z : Val α} (v : Val α) : ∀ {l : List (Symbol α)}
    (_ : findInFrame l frame name = some z) (c : Nat),
    ((setSymbol frame name v l).flatMap (fun x => x.value.targets)).count c + z.targets.count c =
      (l.flatMap (fun x => x.value.targets)).count c + v.targets.count c
  | [], hz, _ => by cases hz
  | s :: l, hz, c => by
    unfold setSymbol
    unfold findInFrame at hz
    rw [List.find?_cons] at hz
    split at hz
    · next hs =>
      cases hz
      rw [if_pos (by simpa using hs)]
      simp only [flatMap_cons, count_append]
      omega
    · next hs =>
      have ih := setSymbol_count v (l := l) hz c
      rw [if_neg (by simpa using hs)]
      simp only [flatMap_cons, count_append] at ih ⊢
      omega

theorem mem_of_findInFrame {l : List (Symbol α)} {frame : Nat} (hv : findInFrame l frame name = some v) :
    ∃ x ∈ l, x.value = v := by
  obtain ⟨x, hx, rfl⟩ := Option.map_eq_some_iff.mp hv
  exact ⟨x, List.mem_of_find?_eq_some hx, rfl⟩

/-- The counts of a state, the references `X` being held beside its variables and its hand. -/
def Sound (s : State α) (X : List Nat) : Prop := Exact s.heap (X ++ s.roots) []

theorem Sound.refs_pos (hs : Sound s X) (hz : s.get p = some z) : ∀ a ∈ z.targets, 0 < s.heap.refs a := by
  intro a ha
  cases p with
  | var frame name =>
    obtain ⟨x, hx, rfl⟩ := mem_of_findInFrame hz
    exact Exact.refs_pos hs (List.mem_append_right _
      (List.mem_append_left _ (List.mem_flatMap.mpr ⟨x, hx, ha⟩)))
  | item b m i =>
    simp only [State.get] at hz
    split at hz
    · next ho =>
      split at hz
      · exact Exact.refs_pos_kid hs ho (List.mem_flatMap.mpr ⟨z, List.mem_of_getElem? hz, ha⟩)
      · cases hz
    · cases hz
  | cell c => exact Exact.refs_pos_kid hs (cellOf_some.mp hz) ha

theorem Sound.live (hs : Sound s X) (hz : s.get p = some z) : Live s.heap z.targets :=
  fun a ha => obj_of_refs (hs.refs_pos hz a ha)

theorem get_builds (hg : Builds s.heap h) (hz : s.get p = some z) :
    ({ s with heap := h } : State α).get p = some z := by
  cases p with
  | var frame name => exact hz
  | item b m i =>
    simp only [State.get] at hz ⊢
    split at hz
    · next ho =>
      rw [hg.grows _ _ ho]
      exact hz
    · cases hz
  | cell c => exact cellOf_some.mpr (hg.grows _ _ (cellOf_some.mp hz))

theorem put_exact (hz : s.get p = some z) (hp : s.put p v = some s')
    (he : Exact s.heap (v.targets ++ (X ++ s.roots)) z.targets) : Sound s' X := by
  cases p with
  | var frame name =>
    cases hp
    refine congr he (fun c => ?_)
    have h1 := setSymbol_count v hz c
    simp only [State.roots, count_append, count_nil]
    omega
  | item b m i =>
    simp only [State.get] at hz
    simp only [State.put] at hp
    split at hz
    · next m' k items ho =>
      rw [ho] at hp
      dsimp only at hp
      split at hz
      · next hm =>
        rw [if_pos hm] at hp
        cases hp
        have e1 := Exact.store (x := Obj.store m' k (items.set i v)) (R := X ++ s.roots)
          (N := items.flatMap Val.targets) ho
          (he.congr (fun c => by
            have h1 := flatMap_set_count v hz c
            simp only [kids_store, count_append]
            omega))
        exact pay (l := items.flatMap Val.targets) (by rw [append_nil]; exact e1)
      · cases hz
    · cases hz
  | cell c =>
    have ho := cellOf_some.mp hz
    simp only [State.put, ho] at hp
    cases hp
    have e1 := Exact.store (x := Obj.cell v) (R := X ++ s.roots) (N := z.targets) ho he
    exact pay (l := z.targets) (by rw [append_nil]; exact e1)

theorem arrayEnsureUnique_builds (he : Exact h R []) (hd : arrayEnsureUnique h a = some (h', a')) : Builds h h' := by
  unfold arrayEnsureUnique at hd
  split at hd
  · next m c items ho =>
    split at hd
    · cases hd
      exact Builds.refl h
    · cases hd
      have e1 := retainAll (items.flatMap Val.targets) he (fun c hc => he.live_kid ho hc)
      exact (Builds.retainAll h _).trans ((Builds.alloc (x := Obj.store 0 items.length items) e1).trans
        (Builds.drop _ _))
  · cases hd

theorem recordEnsureUnique_builds (he : Exact h R []) (hd : recordEnsureUnique h r = some (h', r')) : Builds h h' := by
  cases r with
  | none =>
    cases hd
    exact Builds.refl h
  | some f =>
    simp only [recordEnsureUnique] at hd
    split at hd
    · next fs ho =>
      split at hd
      · cases hd
        exact Builds.refl h
      · cases hd
        have e1 := retainAll (fs.map Field.cell) he (fun c hc => he.live_kid ho hc)
        exact (Builds.retainAll h _).trans ((Builds.alloc (x := Obj.fields fs) e1).trans (Builds.drop _ _))
    · cases hd

theorem detachArray_sound (hs : Sound s X) (hz : s.get p = some (.array a)) (hd : s.detachArray p a = some (s', a')) :
    Sound s' X := by
  obtain ⟨⟨h1, a1⟩, h2, hd⟩ := bind_eq_some_iff.mp hd
  obtain ⟨s1, h3, hd⟩ := bind_eq_some_iff.mp hd
  cases hd
  have e1 := arrayEnsureUnique_exact hs (hs.refs_pos hz a (List.mem_singleton.mpr rfl)) h2
  exact put_exact (get_builds (arrayEnsureUnique_builds hs h2) hz) h3 e1

theorem detachRecord_sound (hs : Sound s X) (hz : s.get p = some (.record r))
    (hd : s.detachRecord p r = some (s', r')) : Sound s' X := by
  obtain ⟨⟨h1, a1⟩, h2, hd⟩ := bind_eq_some_iff.mp hd
  obtain ⟨s1, h3, hd⟩ := bind_eq_some_iff.mp hd
  cases hd
  have e1 := recordEnsureUnique_exact hs (fun f hf => hs.refs_pos hz f (by rw [hf, targets_record]; simp)) h2
  refine put_exact (get_builds (recordEnsureUnique_builds hs h2) hz) h3 ?_
  rw [targets_record, targets_record]
  exact e1

theorem findInFrame_setSymbol {frame : Nat} {name : Name} {z : Val α} (v : Val α) : ∀ {l : List (Symbol α)}
    (_ : findInFrame l frame name = some z),
    findInFrame (setSymbol frame name v l) frame name = some v
  | [], hz => by cases hz
  | x :: l, hz => by
    unfold findInFrame at hz ⊢
    unfold setSymbol
    by_cases hx : x.frame = frame ∧ x.name = name
    · rw [if_pos hx, List.find?_cons_of_pos (by simpa using hx)]
      rfl
    · rw [List.find?_cons_of_neg (by simpa using hx)] at hz
      rw [if_neg hx, List.find?_cons_of_neg (by simpa using hx)]
      exact findInFrame_setSymbol v hz

theorem get_put (hz : s.get p = some z) (hp : s.put p v = some s') : s'.get p = some v := by
  cases p with
  | var frame name =>
    cases hp
    exact findInFrame_setSymbol v hz
  | item b m i =>
    simp only [State.get] at hz
    simp only [State.put] at hp
    split at hz
    · next m' k items ho =>
      rw [ho] at hp
      dsimp only at hp
      split at hz
      · next hm =>
        rw [if_pos hm] at hp
        cases hp
        simp only [State.get, store_obj, ho, map_some, if_true]
        rw [if_pos hm, List.getElem?_set_self (List.getElem?_eq_some_iff.mp hz).1]
      · cases hz
    · cases hz
  | cell c =>
    have ho := cellOf_some.mp hz
    simp only [State.put, ho] at hp
    cases hp
    simp only [State.get, cellOf, store_obj, ho, map_some, if_true]

theorem put_hand (hp : s.put p v = some s') :
    s'.hand = s.hand ∧ s'.depth = s.depth ∧ s'.held = s.held ∧ s'.this = s.this := by
  cases p with
  | var frame name =>
    cases hp
    exact ⟨rfl, rfl, rfl, rfl⟩
  | item b m i =>
    simp only [State.put] at hp
    split at hp
    · split at hp
      · cases hp
        exact ⟨rfl, rfl, rfl, rfl⟩
      · cases hp
    · cases hp
  | cell c =>
    simp only [State.put] at hp
    split at hp
    · cases hp
      exact ⟨rfl, rfl, rfl, rfl⟩
    · cases hp

theorem put_next (hp : s.put p v = some s') : s'.heap.next = s.heap.next := by
  cases p with
  | var frame name =>
    cases hp
    rfl
  | item b m i =>
    simp only [State.put] at hp
    split at hp
    · split at hp
      · cases hp
        exact store_next _ _ _
      · cases hp
    · cases hp
  | cell c =>
    simp only [State.put] at hp
    split at hp
    · cases hp
      exact store_next _ _ _
    · cases hp

theorem recordSet_sound (hs : Sound s (x.targets ++ X)) (hz : s.get p = some (.record r))
    (hd : s.recordSet p r name x = some s') : Sound s' X := by
  obtain ⟨⟨s1, r1⟩, h1, hd⟩ := bind_eq_some_iff.mp hd
  have hs1 := detachRecord_sound hs hz h1
  have hz1 : s1.get p = some (.record r1) := by
    obtain ⟨⟨h2, r2⟩, h3, h1⟩ := bind_eq_some_iff.mp h1
    obtain ⟨s2, h4, h1⟩ := bind_eq_some_iff.mp h1
    cases h1
    exact get_put (get_builds (recordEnsureUnique_builds hs h3) hz) h4
  cases r1 with
  | none =>
    have e1 : Exact s1.heap (kids (Obj.cell x) ++ (X ++ s1.roots)) [] := by
      rw [← List.append_assoc]
      exact hs1
    have e2 := e1.alloc
    have e3 := Exact.alloc (x := Obj.fields [⟨name, .copy, none, s1.heap.next⟩]) e2
    exact put_exact (s := { s1 with
        heap := (s1.heap.alloc (.cell x)).alloc (.fields [⟨name, .copy, none, s1.heap.next⟩]) })
      (get_builds ((Builds.alloc e1).trans
        (Builds.alloc (x := Obj.fields [⟨name, .copy, none, s1.heap.next⟩]) e2)) hz1) hd e3
  | some f =>
    obtain ⟨fs, hf, hd⟩ := bind_eq_some_iff.mp hd
    obtain ⟨h2, hset, hd⟩ := bind_eq_some_iff.mp hd
    cases hd
    refine fieldSet_exact (R := X ++ s1.roots) ?_ (fieldsOf_some.mp hf) hset
    rw [← List.append_assoc]
    exact hs1

theorem storeInsert_live (hd : storeInsert h a i x = some h') : ∃ y, h'.obj a = some y := by
  unfold storeInsert at hd
  split at hd
  · next ho =>
    cases hd
    exact ⟨_, by rw [store_obj, if_pos rfl, ho]; rfl⟩
  · cases hd

theorem storeEdit_live {edit : List (Val α) → List (Val α)} (hd : storeEdit h a i edit = some h') :
    ∃ y, h'.obj a = some y := by
  unfold storeEdit at hd
  obtain ⟨items, hi, hd⟩ := bind_eq_some_iff.mp hd
  obtain ⟨v, hv, hd⟩ := bind_eq_some_iff.mp hd
  obtain ⟨h1, hf, hd⟩ := bind_eq_some_iff.mp hd
  split at hd
  · next ho =>
    cases hd
    exact ⟨_, by rw [store_obj, if_pos rfl, ho]; rfl⟩
  · cases hd

theorem editArray_sound {b : Borrow} {bs : List Borrow} {edit : Store α → Nat → Option (Store α)} (hs : Sound s X)
    (hedit : ∀ h a h' R, Exact h (X ++ R) [] → edit h a = some h' → Exact h' R [])
    (hlive : ∀ h a h', edit h a = some h' → ∃ x, h'.obj a = some x) (hz : s.get b.place = some (.array a))
    (hd : s.editArray b bs a edit = some s') : Sound s' [] := by
  obtain ⟨⟨s1, a1⟩, h1, hd⟩ := bind_eq_some_iff.mp hd
  obtain ⟨h2, h3, hd⟩ := bind_eq_some_iff.mp hd
  cases hd
  have hs1 := detachArray_sound hs hz h1
  have e1 := hedit _ _ _ s1.roots hs1 h3
  have e2 := valueCopy_exact (v := .array a1) e1 (fun c hc => by
    rw [List.mem_singleton.mp hc]
    exact hlive _ _ _ h3)
  refine Exact.roots e2 (fun c => ?_)
  simp only [State.roots, nil_append, flatMap_cons, count_append]
  omega

/-! ## A step -/

theorem extract_sound {rest : List (Val α)} {container : Val α}
    (hs : Sound ({ s with hand := container :: rest } : State α) []) (hv : Live s.heap v.targets)
    (hd : s.extract rest container v = some s') : Sound s' [] := by
  obtain ⟨h1, hf, hd⟩ := bind_eq_some_iff.mp hd
  cases hd
  have e1 := valueCopy_exact hs hv
  have e2 := valueFree_exact (R := v.targets ++ (s.symbols.flatMap (fun x => x.value.targets) ++
    rest.flatMap Val.targets)) (Exact.roots e1 (fun c => by
      simp only [State.roots, nil_append, flatMap_cons, count_append]
      omega)) hf
  refine Exact.roots e2 (fun c => ?_)
  simp only [State.roots, nil_append, flatMap_cons, count_append]
  omega

theorem replace_sound {r : List (Val α)} (hs : Sound ({ s with hand := r } : State α) (v.targets ++ w.targets))
    (hd : s.replace r w v = some s') : Sound s' [] := by
  obtain ⟨h1, hf, hd⟩ := bind_eq_some_iff.mp hd
  cases hd
  have e2 := valueFree_exact (R := v.targets ++ (s.symbols.flatMap (fun x => x.value.targets) ++
    r.flatMap Val.targets)) (Exact.roots hs (fun c => by
      simp only [State.roots, count_append]
      omega)) hf
  refine Exact.roots e2 (fun c => ?_)
  simp only [State.roots, nil_append, flatMap_cons, count_append]
  omega

theorem discard_sound {r : List (Val α)} (hs : Sound ({ s with hand := r } : State α) (w.targets ++ X))
    (hd : s.discard r w = some s') : Sound s' X := by
  obtain ⟨h1, hf, hd⟩ := bind_eq_some_iff.mp hd
  cases hd
  refine valueFree_exact (R := X ++ (s.symbols.flatMap (fun x => x.value.targets) ++
    r.flatMap Val.targets)) ?_ hf
  rw [← List.append_assoc]
  exact hs

theorem Sound.hand {s : State α} {v : Val α} {rest : List (Val α)} (hs : Sound s []) (hh : s.hand = v :: rest) :
    Sound ({ s with hand := rest } : State α) v.targets := by
  refine Exact.roots hs (fun c => ?_)
  simp only [State.roots, hh, nil_append, flatMap_cons, count_append]
  omega

theorem Sound.push (hs : Exact h (v.targets ++ s.roots) []) :
    Sound ({ s with heap := h, hand := v :: s.hand } : State α) [] := by
  refine Exact.roots hs (fun c => ?_)
  simp only [State.roots, nil_append, flatMap_cons, count_append]
  omega

theorem envSet_sound (hs : Sound s v.targets) (hd : s.envSet name v = some s') : Sound s' [] := by
  unfold State.envSet at hd
  split at hd
  · next old ho =>
    obtain ⟨h1, hf, hd⟩ := bind_eq_some_iff.mp hd
    cases hd
    have e1 := valueFree_exact (R := v.targets ++ s.roots) (N := old.targets ++ []) (Exact.owe hs old.targets) hf
    refine congr e1 (fun c => ?_)
    have h2 := setSymbol_count v ho c
    simp only [State.roots, nil_append, count_append, count_nil]
    omega
  · cases hd
    refine Exact.roots hs (fun c => ?_)
    simp only [State.roots, nil_append, List.flatMap_append, flatMap_cons, List.flatMap_nil, count_append,
      count_nil]
    omega

theorem literalFields_take {l : List (Decl × Val α)} (c : Nat) :
    (l.flatMap (fun x => x.2.targets)).count c = ((l.map Prod.snd).flatMap Val.targets).count c := by
  rw [List.flatMap_map]

theorem flatMap_reverse_count (l : List (Val α)) (c : Nat) :
    (l.reverse.flatMap Val.targets).count c = (l.flatMap Val.targets).count c :=
  ((List.reverse_perm l).flatMap_right _).count_eq c

theorem Sound.take (hs : Sound s []) (n : Nat) :
    Sound ({ s with hand := s.hand.drop n } : State α) ((s.hand.take n).reverse.flatMap Val.targets) := by
  refine Exact.roots hs (fun c => ?_)
  have h1 : (s.hand.flatMap Val.targets).count c =
      ((s.hand.take n).flatMap Val.targets).count c + ((s.hand.drop n).flatMap Val.targets).count c := by
    conv_lhs => rw [← List.take_append_drop n s.hand]
    rw [List.flatMap_append, count_append]
  simp only [State.roots, nil_append, count_append, flatMap_reverse_count]
  omega

def FreesOnce (s : State α) (op : Op α) : Prop :=
  match op, s.hand with
  | .assignThis, v :: _ => v.targets = []
  | _, _ => True

theorem filter_count (l : List (Symbol α)) (p : Symbol α → Bool) (c : Nat) :
    ((l.filter p).flatMap (fun x => x.value.targets)).count c +
      ((l.filter (fun x => !p x)).flatMap (fun x => x.value.targets)).count c =
        (l.flatMap (fun x => x.value.targets)).count c := by
  induction l with
  | nil => rfl
  | cons x l ih =>
    rw [List.filter_cons, List.filter_cons]
    cases p x
    · simp only [Bool.false_eq_true, Bool.not_false, if_false, if_true, flatMap_cons, count_append] at ih ⊢
      omega
    · simp only [Bool.not_true, Bool.false_eq_true, if_false, if_true, flatMap_cons, count_append] at ih ⊢
      omega

theorem init_sound : Sound (State.init : State α) [] :=
  ⟨fun _ _ => rfl, fun _ => rfl⟩

end Cow
end Gbasic
