import Mathlib.Data.List.Basic
/-!
# Wildcard — patterns of letters, any one letter and any run of them (library)

`Matches` is the language of a pattern.  A search goes through a text once, and where a letter does not fit goes back to
the last run token it met, which takes one letter more (`Later`).  Only the last run need be kept (`open_run`): whatever
an earlier one could still come to, the last one comes to as well.  Nothing here names a repository.
-/
namespace Gbasic

inductive Tok (α : Type) where
  | run
  | one
  | lit (a : α)
  deriving DecidableEq

namespace Tok

variable {α β : Type} {t : Tok α} {a : α} {p q : List (Tok α)} {s l : List α}

/-- The language of a pattern. -/
inductive Matches : List (Tok α) → List α → Prop
  | nil : Matches [] []
  | run {p : List (Tok α)} {s : List α} (l : List α) (h : Matches p s) : Matches (.run :: p) (l ++ s)
  | one {p : List (Tok α)} {s : List α} (a : α) (h : Matches p s) : Matches (.one :: p) (a :: s)
  | lit {p : List (Tok α)} {s : List α} (a : α) (h : Matches p s) : Matches (.lit a :: p) (a :: s)

def Takes : Tok α → α → Prop
  | .run, _ => False
  | .one, _ => True
  | .lit a, b => a = b

theorem matches_run_iff : Matches (.run :: p) s ↔ ∃ l s', s = l ++ s' ∧ Matches p s' := by
  constructor
  · intro h
    generalize hq : (.run :: p : List (Tok α)) = q at h
    cases h with
    | run l h =>
      cases hq
      exact ⟨l, _, rfl, h⟩
    | nil => cases hq
    | one a h => cases hq
    | lit a h => cases hq
  · rintro ⟨l, s', rfl, h⟩
    exact .run l h

theorem matches_cons_iff (ht : t ≠ .run) : Matches (t :: p) s ↔ ∃ a s', s = a :: s' ∧ t.Takes a ∧ Matches p s' := by
  constructor
  · intro h
    cases h with
    | run l h => exact absurd rfl ht
    | one a h => exact ⟨a, _, rfl, trivial, h⟩
    | lit a h => exact ⟨a, _, rfl, rfl, h⟩
  · rintro ⟨a, s', rfl, hta, h⟩
    cases t with
    | run => exact absurd rfl ht
    | one => exact .one a h
    | lit b =>
      cases hta
      exact .lit a h

theorem matches_nil_iff : Matches p ([] : List α) ↔ ∀ t ∈ p, t = .run := by
  induction p with
  | nil =>
    constructor
    · intro _ t ht
      cases ht
    · exact fun _ => .nil
  | cons t p ih =>
    rw [List.forall_mem_cons]
    by_cases ht : t = .run
    · subst ht
      rw [matches_run_iff, ← ih]
      constructor
      · rintro ⟨l, s', hs, h⟩
        obtain ⟨-, rfl⟩ := List.append_eq_nil_iff.1 hs.symm
        exact ⟨rfl, h⟩
      · rintro ⟨-, h⟩
        exact ⟨[], [], rfl, h⟩
    · rw [matches_cons_iff ht]
      constructor
      · rintro ⟨a, s', hs, -⟩
        cases hs
      · rintro ⟨h, -⟩
        exact absurd h ht

/-- Tokens that take one letter each. -/
def Plain (seg : List (Tok α)) : Prop := ∀ t ∈ seg, t ≠ .run

theorem matches_plain : ∀ {seg : List (Tok α)} {s : List α}, Plain seg → Matches (seg ++ p) s →
    ∃ l s', s = l ++ s' ∧ l.length = seg.length ∧ Matches p s'
  | [], s, _, h => ⟨[], s, rfl, rfl, h⟩
  | t :: seg, s, hp, h => by
    rw [List.cons_append, matches_cons_iff (hp t (List.mem_cons_self ..))] at h
    obtain ⟨a, s', rfl, -, h⟩ := h
    obtain ⟨l, s'', rfl, hl, h⟩ := matches_plain (fun t ht => hp t (List.mem_cons_of_mem _ ht)) h
    exact ⟨a :: l, s'', rfl, congrArg (· + 1) hl, h⟩

def Later (p : List (Tok α)) (s : List α) : Prop := ∃ l s', s = l ++ s' ∧ l ≠ [] ∧ Matches p s'

theorem later_cons : Later p (a :: s) ↔ Matches p s ∨ Later p s := by
  constructor
  · rintro ⟨l, s', hs, hl, h⟩
    cases l with
    | nil => exact absurd rfl hl
    | cons b l =>
      obtain ⟨rfl, rfl⟩ := List.cons.inj hs
      cases l with
      | nil => exact .inl h
      | cons c l => exact .inr ⟨c :: l, s', rfl, List.cons_ne_nil _ _, h⟩
  · rintro (h | ⟨l, s', rfl, -, h⟩)
    · exact ⟨[a], s, rfl, List.cons_ne_nil _ _, h⟩
    · exact ⟨a :: l, s', rfl, List.cons_ne_nil _ _, h⟩

theorem matches_run_or : Matches (.run :: p) s ↔ Matches p s ∨ Later p s := by
  rw [matches_run_iff]
  constructor
  · rintro ⟨l, s', rfl, h⟩
    cases l with
    | nil => exact .inl h
    | cons a l => exact .inr ⟨a :: l, s', rfl, List.cons_ne_nil _ _, h⟩
  · rintro (h | ⟨l, s', rfl, -, h⟩)
    · exact ⟨[], s, rfl, h⟩
    · exact ⟨l, s', rfl, h⟩

theorem Later.run {seg : List (Tok α)} (hp : Plain seg) (hl : l.length = seg.length)
    (h : Later (seg ++ .run :: p) (l ++ s)) : Matches (.run :: p) s := by
  obtain ⟨x, s', hs, hx, h⟩ := h
  obtain ⟨y, s'', rfl, hy, h⟩ := matches_plain hp h
  rw [← List.append_assoc] at hs
  have hlen : l.length ≤ (x ++ y).length := by
    rw [List.length_append, hy, hl]
    omega
  obtain ⟨z, hz⟩ := List.prefix_of_prefix_length_le (List.prefix_append l s) ⟨s'', hs.symm⟩ hlen
  rw [← hz, List.append_assoc] at hs
  rw [List.append_cancel_left hs]
  obtain ⟨l', s₁, rfl, hm⟩ := matches_run_iff.1 h
  exact matches_run_iff.2 ⟨z ++ l', s₁, (List.append_assoc ..).symm, hm⟩

theorem not_later {seg : List (Tok α)} (hp : Plain seg) (hl : l.length = seg.length) : ¬ Later (seg ++ p) l := by
  rintro ⟨x, s', rfl, hx, h⟩
  obtain ⟨y, s'', rfl, hy, -⟩ := matches_plain hp h
  have := List.length_pos_iff.2 hx
  rw [List.length_append, List.length_append] at hl
  omega

/-! ## A search -/

/-- What a search can still come to: a match from where it stands, or one from a later place of the last run. -/
def Open (p : List (Tok α)) (s : List α) (star : Option (List (Tok α) × List α)) : Prop :=
  Matches p s ∨ ∃ x ∈ star, Later x.1 x.2

def Linked (p : List (Tok α)) (s : List α) (star : Option (List (Tok α) × List α)) : Prop :=
  ∀ x ∈ star, ∃ seg l, Plain seg ∧ l.length = seg.length ∧ x.1 = seg ++ p ∧ x.2 = l ++ s

variable {star : Option (List (Tok α) × List α)}

theorem linked_start (p : List (Tok α)) (s : List α) : Linked p s (some (p, s)) := by
  rintro x ⟨⟩
  exact ⟨[], [], (fun _ h => by cases h), rfl, rfl, rfl⟩

theorem Linked.cons (ht : t ≠ .run) (h : Linked (t :: p) (a :: s) star) : Linked p s star := by
  intro x hx
  obtain ⟨seg, l, hp, hl, h1, h2⟩ := h x hx
  refine ⟨seg ++ [t], l ++ [a], ?_, ?_, ?_, ?_⟩
  · intro t' ht'
    rcases List.mem_append.1 ht' with ht' | ht'
    · exact hp t' ht'
    · exact List.mem_singleton.1 ht' ▸ ht
  · rw [List.length_append, List.length_append, hl]
    rfl
  · rw [h1, List.append_assoc]
    rfl
  · rw [h2, List.append_assoc]
    rfl

/-- **A run met**: the one before it need not be kept. -/
theorem open_run (h : Linked (.run :: p) s star) : Open (.run :: p) s star ↔ Open p s (some (p, s)) := by
  unfold Open
  rw [matches_run_or]
  constructor
  · rintro ((hm | hm) | ⟨x, hx, hm⟩)
    · exact .inl hm
    · exact .inr ⟨_, rfl, hm⟩
    · obtain ⟨seg, l, hp, hl, h1, h2⟩ := h x hx
      rw [h1, h2] at hm
      rcases matches_run_or.1 (hm.run hp hl) with hm | hm
      · exact .inl hm
      · exact .inr ⟨_, rfl, hm⟩
  · rintro (hm | ⟨x, ⟨⟩, hm⟩)
    · exact .inl (.inl hm)
    · exact .inl (.inr hm)

theorem open_take (ht : t ≠ .run) (hta : t.Takes a) : Open (t :: p) (a :: s) star ↔ Open p s star := by
  unfold Open
  have hm : Matches (t :: p) (a :: s) ↔ Matches p s := by
    rw [matches_cons_iff ht]
    constructor
    · rintro ⟨b, s', hs, -, h⟩
      obtain ⟨rfl, rfl⟩ := List.cons.inj hs
      exact h
    · intro h
      exact ⟨a, s, rfl, hta, h⟩
  rw [hm]

theorem not_matches_cons (h : ∀ t q, p = t :: q → t ≠ .run ∧ ¬ t.Takes a) : ¬ Matches p (a :: s) := by
  intro hm
  cases p with
  | nil => cases hm
  | cons t q =>
    obtain ⟨ht, hta⟩ := h t q rfl
    obtain ⟨b, s', hs, htb, -⟩ := (matches_cons_iff ht).1 hm
    obtain ⟨rfl, rfl⟩ := List.cons.inj hs
    exact hta htb

/-- **A letter that does not fit**: the last run takes one letter more. -/
theorem open_back (h : ¬ Matches p s) : Open p s (some (q, a :: l)) ↔ Open q l (some (q, l)) := by
  unfold Open
  constructor
  · rintro (hm | ⟨x, ⟨⟩, hm⟩)
    · exact absurd hm h
    · rcases later_cons.1 hm with hm | hm
      · exact .inl hm
      · exact .inr ⟨_, rfl, hm⟩
  · rintro (hm | ⟨x, ⟨⟩, hm⟩)
    · exact .inr ⟨_, rfl, later_cons.2 (.inl hm)⟩
    · exact .inr ⟨_, rfl, later_cons.2 (.inr hm)⟩

theorem open_none : Open p s none ↔ Matches p s := ⟨fun h => h.elim id (fun ⟨_, h, _⟩ => by cases h), .inl⟩

theorem open_end (h : Linked p [] star) : Open p [] star ↔ ∀ t ∈ p, t = .run := by
  rw [← matches_nil_iff]
  refine ⟨fun hm => ?_, .inl⟩
  rcases hm with hm | ⟨x, hx, hm⟩
  · exact hm
  · obtain ⟨seg, l, hp, hl, h1, h2⟩ := h x hx
    rw [h1, h2, List.append_nil] at hm
    exact absurd hm (not_later hp hl)

theorem not_open_last (h : Linked (t :: p) [a] star) (ht : t ≠ .run) (hta : ¬ t.Takes a) :
    ¬ Open (t :: p) [a] star := by
  rintro (hm | ⟨x, hx, hm⟩)
  · refine not_matches_cons (fun t' q hq => ?_) hm
    obtain ⟨rfl, rfl⟩ := List.cons.inj hq
    exact ⟨ht, hta⟩
  · obtain ⟨seg, l, hp, hl, h1, h2⟩ := h.cons ht x hx
    rw [List.append_nil] at h2
    rw [h1, h2] at hm
    exact not_later hp hl hm

/-! ## Letters spelled otherwise -/

def map (f : α → β) : Tok α → Tok β
  | .run => .run
  | .one => .one
  | .lit a => .lit (f a)

theorem matches_map {f : α → β} (hf : Function.Injective f) : ∀ {p : List (Tok α)} {s : List α},
    Matches (p.map (Tok.map f)) (s.map f) ↔ Matches p s
  | [], [] => ⟨fun _ => .nil, fun _ => .nil⟩
  | [], a :: s => ⟨(fun h => by cases h), (fun h => by cases h)⟩
  | .run :: p, s => by
    rw [List.map_cons, Tok.map, matches_run_iff, matches_run_iff]
    constructor
    · rintro ⟨l, s', hs, h⟩
      obtain ⟨l, s', rfl, rfl, rfl⟩ := List.map_eq_append_iff.1 hs
      exact ⟨l, s', rfl, (matches_map hf).1 h⟩
    · rintro ⟨l, s', rfl, h⟩
      exact ⟨l.map f, s'.map f, List.map_append, (matches_map hf).2 h⟩
  | .one :: p, [] => ⟨(fun h => by cases h), (fun h => by cases h)⟩
  | .one :: p, a :: s => by
    rw [List.map_cons, Tok.map, List.map_cons]
    constructor
    · rintro ⟨⟩
      exact .one a ((matches_map hf).1 ‹_›)
    · rintro ⟨⟩
      exact .one (f a) ((matches_map hf).2 ‹_›)
  | .lit b :: p, [] => ⟨(fun h => by cases h), (fun h => by cases h)⟩
  | .lit b :: p, a :: s => by
    rw [List.map_cons, Tok.map, List.map_cons]
    constructor
    · intro h
      obtain ⟨c, s', hs, hb, hm⟩ := (matches_cons_iff (fun h => by cases h)).1 h
      obtain ⟨rfl, rfl⟩ := List.cons.inj hs
      rw [hf hb]
      exact .lit _ ((matches_map hf).1 hm)
    · rintro ⟨⟩
      exact .lit _ ((matches_map hf).2 ‹_›)

end Tok
end Gbasic
