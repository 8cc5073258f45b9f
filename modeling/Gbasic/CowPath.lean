import Gbasic.CowCyclic
/-!
# CowPath — where a path leads, and through what

Walking a borrow's path again from its variable, without detaching anything: the place, whether every block on the way
from the variable, or from the last link, is counted once, and whether there was a link.
-/
namespace Gbasic
namespace Cow

open Counted Counted.Heap

variable {α : Type}

structure Found where
  place : Place
  alone : Bool
  linked : Bool
  deriving DecidableEq

namespace State

def walkStep (s : State α) (x : Found) : PathStep → Option Found
  | .field name => do
    match ← s.get x.place with
    | .record (some f) => do
      let g ← (← fieldsOf s.heap (some f)).find? (fun g => g.name = name)
      if g.policy = .link then some ⟨.cell g.cell, true, true⟩
      else some ⟨.cell g.cell, x.alone && decide (s.heap.refs f = 1) && decide (s.heap.refs g.cell = 1), x.linked⟩
    | _ => none
  | .index i => do
    match ← s.get x.place with
    | .array a =>
      match s.heap.obj a with
      | some (.store moves _ items) => do
        let k ← itemAt items.length i
        some ⟨.item a moves k, x.alone && decide (s.heap.refs a = 1), x.linked⟩
      | _ => none
    | _ => none

def walk (s : State α) (x : Found) : List PathStep → Option Found
  | [] => some x
  | t :: path => do s.walk (← s.walkStep x t) path

def found (s : State α) (b : Borrow) : Option Found := s.walk ⟨.var b.frame b.name, true, false⟩ b.path

end State

/-- A way down to a place: from a variable or from a block, through blocks counted once, to the place's own. -/
structure Leads (s : State α) (o : Option Nat) (D : List Nat) (p : Place) : Prop where
  way : Way s.heap s.roots o D
  owner : p.owner = D.head?.or o
  start : o = none → ∀ a, D.getLast? = some a → a ∈ s.symbols.flatMap (fun x => x.value.targets)

theorem Leads.step {s : State α} {o : Option Nat} {D : List Nat} {p : Place} (hl : Leads s o D p) {z : Val α}
    (hz : s.get p = some z) {a : Nat} (ha : a ∈ z.targets) (h1 : s.heap.refs a = 1) :
    Way s.heap s.roots o (a :: D) ∧
      (o = none → ∀ c, (a :: D).getLast? = some c → c ∈ s.symbols.flatMap (fun x => x.value.targets)) := by
  cases D with
  | nil =>
    have ho : p.owner = o := by
      rw [hl.owner]
      rfl
    cases o with
    | none =>
      have hroot := get_root hz ho ha
      refine ⟨.first (List.mem_append_left _ hroot) h1, fun _ c hc => ?_⟩
      cases hc
      exact hroot
    | some o => exact ⟨.first (edge_get hz ho ha) h1, fun h => by cases h⟩
  | cons b D =>
    have ho : p.owner = some b := by
      rw [hl.owner]
      rfl
    refine ⟨.step hl.way (edge_get hz ho ha) h1, fun hn c hc => ?_⟩
    rw [List.getLast?_cons_cons] at hc
    exact hl.start hn c hc

theorem walkStep_leads {s : State α} {o : Option Nat} {D : List Nat} {x y : Found} {t : PathStep}
    (hl : x.alone = true → Leads s o D x.place) (hw : s.walkStep x t = some y) :
    y.alone = true → (y.linked = x.linked ∧ ∃ D', Leads s o D' y.place) ∨
      (y.linked = true ∧ ∃ c, Leads s (some c) [] y.place) := by
  intro hy
  cases t with
  | field name =>
    obtain ⟨z, hz, hw⟩ := Option.bind_eq_some_iff.mp hw
    split at hw
    · next f =>
      obtain ⟨fs, hfs, hw⟩ := Option.bind_eq_some_iff.mp hw
      obtain ⟨g, hg, hw⟩ := Option.bind_eq_some_iff.mp hw
      split at hw
      · cases hw
        exact Or.inr ⟨rfl, g.cell, .nil, rfl, fun h => by cases h⟩
      · cases hw
        simp only [Bool.and_eq_true, decide_eq_true_eq] at hy
        obtain ⟨⟨hx, hf1⟩, hc1⟩ := hy
        obtain ⟨hway, hstart⟩ := (hl hx).step hz (a := f) (by rw [targets_record]; simp) hf1
        refine Or.inl ⟨rfl, g.cell :: f :: D, .step hway ?_ hc1, rfl, fun hn c hc => ?_⟩
        · exact ⟨_, fieldsOf_some.mp hfs, List.mem_map_of_mem (List.mem_of_find?_eq_some hg)⟩
        · rw [List.getLast?_cons_cons] at hc
          exact hstart hn c hc
    · cases hw
  | index i =>
    obtain ⟨z, hz, hw⟩ := Option.bind_eq_some_iff.mp hw
    split at hw
    · next a =>
      split at hw
      · obtain ⟨k, hk, hw⟩ := Option.bind_eq_some_iff.mp hw
        cases hw
        simp only [Bool.and_eq_true, decide_eq_true_eq] at hy
        obtain ⟨hx, ha1⟩ := hy
        obtain ⟨hway, hstart⟩ := (hl hx).step hz (a := a) (List.mem_singleton.mpr rfl) ha1
        exact Or.inl ⟨rfl, a :: D, hway, rfl, hstart⟩
      · cases hw
    · cases hw

theorem walk_leads {s : State α} : ∀ (path : List PathStep) {x y : Found}
    (_ : x.alone = true → ∃ o D, Leads s o D x.place ∧ (x.linked = false → o = none))
    (_ : s.walk x path = some y), y.alone = true → ∃ o D, Leads s o D y.place ∧ (y.linked = false → o = none)
  | [], x, y, hl, hw, hy => by
    cases hw
    exact hl hy
  | t :: path, x, y, hl, hw, hy => by
    obtain ⟨x1, h1, hw⟩ := Option.bind_eq_some_iff.mp hw
    refine walk_leads path (x := x1) (fun hx1 => ?_) hw hy
    by_cases hx : x.alone = true
    · obtain ⟨o, D, hlead, hlink⟩ := hl hx
      rcases walkStep_leads (fun _ => hlead) h1 hx1 with ⟨heq, D', hD'⟩ | ⟨htrue, c, hc⟩
      · exact ⟨o, D', hD', fun hf => hlink (heq ▸ hf)⟩
      · exact ⟨some c, [], hc, fun hf => by rw [htrue] at hf; cases hf⟩
    · rcases walkStep_leads (o := none) (D := []) (fun h => absurd h hx) h1 hx1 with ⟨_, D', hD'⟩ | ⟨htrue, c, hc⟩
      · refine ⟨none, D', hD', fun _ => rfl⟩
      · exact ⟨some c, [], hc, fun hf => by rw [htrue] at hf; cases hf⟩

/-- **A borrow that is where its path leads, alone**, lies at the end of a way. -/
theorem found_leads {s : State α} {b : Borrow} {linked : Bool} (hb : s.found b = some ⟨b.place, true, linked⟩) :
    ∃ o D, Leads s o D b.place ∧ (linked = false → o = none) :=
  walk_leads b.path (x := ⟨.var b.frame b.name, true, false⟩)
    (fun _ => ⟨none, [], ⟨.nil, rfl, fun _ a ha => by cases ha⟩, fun _ => rfl⟩) hb rfl

/-- **Nothing in the hand leads into a path without links** whose blocks are counted once. -/
theorem plain_unreached {s : State α} (hs : Sound s []) {b : Borrow} (hb : s.found b = some ⟨b.place, true, false⟩)
    {o : Nat} (ho : b.place.owner = some o) {v : Val α} (hv : v ∈ s.hand) : ¬ LeadsTo s.heap v o := by
  rintro ⟨t, ht, hr⟩
  obtain ⟨o', D, hl, hnone⟩ := found_leads hb
  rw [hnone rfl] at hl
  have hD : o ∈ D := by
    have h1 := hl.owner
    rw [ho, Option.or_none] at h1
    exact List.mem_of_mem_head? h1.symm
  have htD := hl.way.closed hs hr hD
  have hthand : t ∈ s.hand.flatMap Val.targets := List.mem_flatMap.mpr ⟨v, hv, ht⟩
  have hroot : t ∈ s.roots := List.mem_append_right _ hthand
  obtain ⟨_, hlast⟩ := hl.way.rooted hs t htD hroot
  have h1 := hl.way.once t htD
  have h2 := List.count_pos_iff.mpr (hl.start rfl t hlast)
  have h3 := List.count_pos_iff.mpr hthand
  have h4 := Exact.exact hs t
  simp only [State.roots, List.nil_append, List.count_append, List.count_nil] at h4
  omega

end Cow
end Gbasic
