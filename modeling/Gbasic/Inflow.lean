import Mathlib.Data.List.TakeWhile
/-!
# Inflow — what is read in pieces (library)

A reader holds a piece in hand and reads the next when it is spent; a piece of nothing is the end.  The next item is
the first of what is unread (`peek_fst`), looking moves nothing (`unread_peek`), and taking drops it (`unread_take`),
wherever the pieces are cut.  Nothing here names a repository.
-/
namespace Gbasic

/-- The piece in hand and how far it is read, what further reads give, whether the last of them fails, and whether it
has come to that. -/
structure Inflow (α : Type) where
  held : List α
  pos : Nat
  reads : List (List α)
  fails : Bool
  ended : Bool
  failed : Bool

namespace Inflow

variable {α : Type}

def ofList (l : List α) : Inflow α := ⟨l, 0, [], false, true, false⟩

def ofReads (reads : List (List α)) (fails : Bool) : Inflow α := ⟨[], 0, reads, fails, false, false⟩

def fill (s : Inflow α) : Inflow α × Bool :=
  if s.ended then (s, false)
  else
    match s.reads with
    | (a :: piece) :: more => ({ s with held := a :: piece, pos := 0, reads := more }, true)
    | _ => ({ s with held := [], pos := 0, ended := true, failed := s.failed || s.fails }, false)

def peek (s : Inflow α) : Option α × Inflow α :=
  if s.held.length ≤ s.pos then
    match s.fill with
    | (s, true) => (s.held[s.pos]?, s)
    | (s, false) => (none, s)
  else (s.held[s.pos]?, s)

def take (s : Inflow α) : Inflow α := { s with pos := s.pos + 1 }

def unread (s : Inflow α) : List α :=
  s.held.drop s.pos ++ if s.ended then [] else (s.reads.takeWhile (fun piece => !piece.isEmpty)).flatten

@[simp] theorem unread_ofList (l : List α) : (ofList l).unread = l := by
  unfold ofList unread
  simp

theorem unread_ofReads {reads : List (List α)} (h : ∀ piece ∈ reads, piece ≠ []) (fails : Bool) :
    (ofReads reads fails).unread = reads.flatten := by
  have hall : reads.takeWhile (fun piece => !piece.isEmpty) = reads := by
    rw [List.takeWhile_eq_self_iff]
    intro piece hmem
    simpa using h piece hmem
  unfold ofReads unread
  simp [hall]

theorem peek_spec (s : Inflow α) : s.peek.1 = s.unread.head? ∧ s.peek.2.unread = s.unread ∧
    s.peek.2.take.unread = s.unread.tail := by
  unfold peek
  by_cases hspent : s.held.length ≤ s.pos
  · have hdrop : s.held.drop s.pos = [] := List.drop_eq_nil_of_le hspent
    rw [if_pos hspent]
    unfold fill
    by_cases hended : s.ended = true
    · rw [if_pos hended]
      have hunread : s.unread = [] := by
        unfold unread
        rw [hdrop, if_pos hended, List.append_nil]
      have htake : s.take.unread = [] := by
        unfold take unread
        dsimp only
        rw [if_pos hended, List.drop_eq_nil_of_le (by omega), List.append_nil]
      rw [hunread]
      exact ⟨rfl, rfl, htake⟩
    · rw [if_neg hended]
      rcases hreads : s.reads with _ | ⟨_ | ⟨a, piece⟩, more⟩
      · have hunread : s.unread = [] := by
          unfold unread
          rw [hdrop, if_neg hended, hreads]
          rfl
        rw [hunread]
        exact ⟨rfl, rfl, rfl⟩
      · have hunread : s.unread = [] := by
          unfold unread
          rw [hdrop, if_neg hended, hreads]
          rfl
        rw [hunread]
        exact ⟨rfl, rfl, rfl⟩
      · have hunread : s.unread = a :: piece ++ (more.takeWhile (fun piece => !piece.isEmpty)).flatten := by
          unfold unread
          rw [hdrop, if_neg hended, hreads]
          rfl
        rw [hunread]
        refine ⟨rfl, ?_, ?_⟩
        · unfold unread
          dsimp only
          rw [if_neg hended]
          rfl
        · unfold take unread
          dsimp only
          rw [if_neg hended]
          rfl
  · rw [if_neg hspent]
    obtain ⟨a, l, hdrop⟩ : ∃ a l, s.held.drop s.pos = a :: l :=
      List.exists_cons_of_ne_nil (fun h => hspent (List.drop_eq_nil_iff.1 h))
    have hnext : s.held.drop (s.pos + 1) = l := by
      rw [← List.tail_drop, hdrop, List.tail_cons]
    have hhead : s.held[s.pos]? = some a := by
      rw [← List.head?_drop, hdrop, List.head?_cons]
    refine ⟨?_, rfl, ?_⟩
    · unfold unread
      rw [hdrop, hhead]
      rfl
    · unfold take unread
      dsimp only
      rw [hdrop, hnext]
      rfl

theorem peek_fst (s : Inflow α) : s.peek.1 = s.unread.head? := (peek_spec s).1

@[simp] theorem unread_peek (s : Inflow α) : s.peek.2.unread = s.unread := (peek_spec s).2.1

theorem unread_take (s : Inflow α) : s.peek.2.take.unread = s.unread.tail := (peek_spec s).2.2

/-! ## Reads that fail -/

def Sound (s : Inflow α) : Prop := s.failed = false ∧ s.fails = false

theorem Sound.peek {s : Inflow α} (h : s.Sound) : s.peek.2.Sound := by
  obtain ⟨hfailed, hfails⟩ := h
  unfold Inflow.peek fill
  split_ifs with hspent hended
  · exact ⟨hfailed, hfails⟩
  · rcases s.reads with _ | ⟨_ | ⟨a, piece⟩, more⟩
    · exact ⟨by simp [hfailed, hfails], hfails⟩
    · exact ⟨by simp [hfailed, hfails], hfails⟩
    · exact ⟨hfailed, hfails⟩
  · exact ⟨hfailed, hfails⟩

theorem Sound.take {s : Inflow α} (h : s.Sound) : s.take.Sound := h

end Inflow
end Gbasic
