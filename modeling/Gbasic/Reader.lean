import Gbasic.Bytes
/-!
# Reader — reading from the front of some bytes (library)

A reader takes a value from the front of some bytes and leaves the rest, or fails.  One that is `Local` reads the same
whatever follows what it reads, so values written one after another are read back one after another
(`Local.whole`).  Nothing here names a repository.
-/
namespace Gbasic

abbrev Reader := StateT (List Byte) Option

namespace Reader

variable {α β : Type}

def le (w : Nat) : Reader Nat := fun l => leGet w l

def uleb : Reader Nat := fun l => ulebGet 10 0 0 l

/-- The next `n` bytes. -/
def bytes (n : Nat) : Reader (List Byte) := fun l => if n ≤ l.length then some (l.take n, l.drop n) else none

/-- At least `n` bytes are left. -/
def left (n : Nat) : Reader Unit := fun l => if n ≤ l.length then some ((), l) else none

def require (c : Prop) [Decidable c] : Reader Unit := fun l => if c then some ((), l) else none

def times (n : Nat) (p : α → Reader α) (a : α) : Reader α :=
  match n with
  | 0 => pure a
  | n + 1 => p a >>= times n p

def whole (p : Reader α) (l : List Byte) : Option α :=
  match p l with
  | some (a, []) => some a
  | _ => none

theorem bind_some {p : Reader α} {l l' : List Byte} {a : α} (h : p l = some (a, l')) (q : α → Reader β) :
    (p >>= q) l = q a l' := by
  show (p l).bind (fun x => q x.1 x.2) = q a l'
  rw [h]
  rfl

def Local (p : Reader α) : Prop := ∀ l m a r, p l = some (a, r) → p (l ++ m) = some (a, r ++ m)

theorem Local.le (w : Nat) : Local (le w) := fun l m _ _ h => leGet_append w l m h

theorem Local.uleb : Local uleb := fun l m _ _ h => ulebGet_append 10 0 0 l m h

theorem Local.pure (a : α) : Local (pure a : Reader α) := by
  intro l m b r h
  cases h
  rfl

theorem Local.bytes (n : Nat) : Local (bytes n) := by
  intro l m a r h
  unfold Reader.bytes at h ⊢
  split_ifs at h with hn
  simp only [Option.some.injEq, Prod.mk.injEq] at h
  obtain ⟨rfl, rfl⟩ := h
  rw [if_pos (by simp; omega), List.take_append_of_le_length hn, List.drop_append_of_le_length hn]

theorem Local.left (n : Nat) : Local (left n) := by
  intro l m a r h
  unfold Reader.left at h ⊢
  split_ifs at h with hn
  cases h
  rw [if_pos (by simp; omega)]

theorem Local.require (c : Prop) [Decidable c] : Local (require c) := by
  intro l m a r h
  unfold Reader.require at h ⊢
  split_ifs at h with hc
  cases h
  rw [if_pos hc]

theorem Local.failure : Local (failure : Reader α) := by
  intro l m a r h
  cases h

theorem Local.bind {p : Reader α} {q : α → Reader β} (hp : Local p) (hq : ∀ a, Local (q a)) : Local (p >>= q) := by
  intro l m b r h
  obtain ⟨⟨a, l'⟩, ha, hb⟩ := Option.bind_eq_some_iff.1 h
  have hpa : p (l ++ m) = some (a, l' ++ m) := hp l m a l' ha
  rw [bind_some hpa]
  exact hq a l' m b r hb

theorem Local.ite {c : Prop} [Decidable c] {p q : Reader α} (hp : Local p) (hq : Local q) :
    Local (if c then p else q) := by
  split_ifs
  · exact hp
  · exact hq

theorem Local.times {p : α → Reader α} (hp : ∀ a, Local (p a)) : ∀ (n : Nat) (a : α), Local (times n p a)
  | 0, a => Local.pure a
  | n + 1, a => (hp a).bind (Local.times hp n)

/-- **What a local reader takes whole, it takes from the front of more.** -/
theorem Local.of_whole {p : Reader α} (hp : Local p) {l : List Byte} {a : α} (h : whole p l = some a) (m : List Byte) :
    p (l ++ m) = some (a, m) := by
  unfold Reader.whole at h
  rcases hl : p l with _ | ⟨b, _ | ⟨x, r⟩⟩
  · rw [hl] at h
    cases h
  · rw [hl] at h
    cases h
    exact hp l m a [] hl
  · rw [hl] at h
    cases h

end Reader
end Gbasic
