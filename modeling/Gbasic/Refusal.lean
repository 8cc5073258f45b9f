import Gbasic.Currency
/-!
# Refusal — what a library written in the language refuses

An `error` of the library's own, or what an operator raised in it.
-/
namespace Gbasic

open Eval (Bytes Raise)

inductive Refusal where
  | error (message : Bytes)
  | raise (r : Raise)

def raising {α : Type} : Except Raise α → Except Refusal α
  | .ok a => .ok a
  | .error r => .error (.raise r)

theorem raising_ok {α : Type} {x : Except Raise α} {a : α} : raising x = .ok a ↔ x = .ok a := by
  rcases x with e | b
  · constructor
    · intro h
      cases h
    · intro h
      cases h
  · unfold raising
    rw [Except.ok.injEq, Except.ok.injEq]

theorem bind_ok {ε α β : Type} {x : Except ε α} {f : α → Except ε β} {b : β} :
    x >>= f = .ok b ↔ ∃ a, x = .ok a ∧ f a = .ok b := by
  rcases x with e | a
  · constructor
    · intro h
      cases h
    · rintro ⟨a, h, -⟩
      cases h
  · constructor
    · intro h
      exact ⟨a, rfl, h⟩
    · rintro ⟨a', h, hf⟩
      obtain rfl := Except.ok.inj h
      exact hf

end Gbasic
