/-!
# Prog — programs that ask for operations, and what a cut leaves (library)

A program is a tree of requests and answers.  A machine answers: `exec s o` is the answer to `o` in state `s` and the
state after it.  `run` is the whole program, `cutAt n` the state in which the `n`-th request was about to be made.
`wp` asks for a postcondition of the whole program and for a condition `C` of every state a cut can leave; it
composes over `bind`, and `wp_run` and `wp_cutAt` are its soundness.  `Does P m Q` is the triple of a stateful step:
from a state of which `P` holds, `m` answers a value and leaves a state of which `Q` holds.  Nothing here names a
repository.
-/
namespace Gbasic

inductive Prog (O A : Type) (α : Type) : Type where
  | ret (a : α)
  | ask (o : O) (k : A → Prog O A α)

namespace Prog

variable {O A σ α β : Type}

variable {p : Prog O A α}

def bind : Prog O A α → (α → Prog O A β) → Prog O A β
  | .ret a, f => f a
  | .ask o k, f => .ask o (fun x => (k x).bind f)

instance : Monad (Prog O A) where
  pure := .ret
  bind := bind

def request (o : O) : Prog O A A := .ask o .ret

/-- The whole program, on a machine. -/
def run (exec : σ → O → A × σ) : Prog O A α → σ → α × σ
  | .ret a, s => (a, s)
  | .ask o k, s => run exec (k (exec s o).1) (exec s o).2

/-- **The weakest precondition**: `Q` of the answer and the last state, and `C` before every request. -/
def wp (exec : σ → O → A × σ) (C : σ → Prop) : Prog O A α → (α → σ → Prop) → σ → Prop
  | .ret a, Q, s => Q a s
  | .ask o k, Q, s => C s ∧ wp exec C (k (exec s o).1) Q (exec s o).2

variable {exec : σ → O → A × σ} {C : σ → Prop}

@[simp] theorem wp_pure (a : α) (Q : α → σ → Prop) (s : σ) : wp exec C (pure a) Q s = Q a s := rfl

@[simp] theorem wp_request (o : O) (Q : A → σ → Prop) (s : σ) :
    wp exec C (request o) Q s = (C s ∧ Q (exec s o).1 (exec s o).2) := rfl

theorem wp_bind' : ∀ (p : Prog O A α) (f : α → Prog O A β) (Q : β → σ → Prop) (s : σ),
    wp exec C (p.bind f) Q s = wp exec C p (fun a s' => wp exec C (f a) Q s') s
  | .ret _, _, _, _ => rfl
  | .ask o k, f, Q, s => by
    show (C s ∧ wp exec C ((k (exec s o).1).bind f) Q (exec s o).2) = _
    rw [wp_bind' (k (exec s o).1) f Q]
    rfl

@[simp] theorem wp_bind (p : Prog O A α) (f : α → Prog O A β) (Q : β → σ → Prop) (s : σ) :
    wp exec C (p >>= f) Q s = wp exec C p (fun a s' => wp exec C (f a) Q s') s := wp_bind' p f Q s

theorem wp_mono {C' : σ → Prop} (hC : ∀ s, C s → C' s) :
    ∀ (p : Prog O A α) {Q Q' : α → σ → Prop} (s : σ), wp exec C p Q s → (∀ a s', Q a s' → Q' a s') →
      wp exec C' p Q' s
  | .ret a, _, _, s, h, hQ => hQ a s h
  | .ask _ _, _, _, s, h, hQ => ⟨hC s h.1, wp_mono hC _ _ h.2 hQ⟩

theorem wp_use {Q Q' : α → σ → Prop} {s : σ} (h : wp exec C p Q s) (hQ : ∀ a s', Q a s' → Q' a s') :
    wp exec C p Q' s := wp_mono (fun _ h => h) p s h hQ

theorem wp_and : ∀ (p : Prog O A α) {Q Q' : α → σ → Prop} (s : σ), wp exec C p Q s → wp exec C p Q' s →
    wp exec C p (fun a s' => Q a s' ∧ Q' a s') s
  | .ret _, _, _, _, h, h' => ⟨h, h'⟩
  | .ask _ _, _, _, _, h, h' => ⟨h.1, wp_and _ _ h.2 h'.2⟩

/-- **Soundness**: the postcondition holds of what `run` answers. -/
theorem wp_run : ∀ (p : Prog O A α) {Q : α → σ → Prop} (s : σ), wp exec C p Q s →
    Q (run exec p s).1 (run exec p s).2
  | .ret _, _, _, h => h
  | .ask o k, _, s, h => wp_run (k (exec s o).1) (exec s o).2 h.2

theorem wp_of_run : ∀ (p : Prog O A α) {Q : α → σ → Prop} (s : σ),
    Q (run exec p s).1 (run exec p s).2 → wp exec (fun _ => True) p Q s
  | .ret _, _, _, h => h
  | .ask o k, _, s, h => ⟨trivial, wp_of_run (k (exec s o).1) (exec s o).2 h⟩

theorem wp_any {Q : α → σ → Prop} (h : ∀ a s', Q a s') (s : σ) : wp exec (fun _ => True) p Q s :=
  wp_of_run p s (h _ _)

/-! ## A state threaded by the program -/

section
variable {S : Type} {R : S × σ → S × σ → Prop}

variable {out : α → S}

/-- **Whatever comes of it**, `p` begun with `db` in hand ends with `out a`, and `R` relates the two, machine
included. -/
def Moves (exec : σ → O → A × σ) (R : S × σ → S × σ → Prop) (db : S) (p : Prog O A α) (out : α → S) : Prop :=
  ∀ w, wp exec (fun _ => True) p (fun a w' => R (db, w) (out a, w')) w

theorem Moves.pure {db : S} {a : α} {out : α → S} (h : ∀ w, R (db, w) (out a, w)) :
    Moves exec R db (pure a) out := h

theorem Moves.bind (ht : ∀ x y z, R x y → R y z → R x z) {db : S} {f : α → Prog O A β} {out' : β → S}
    (hp : Moves exec R db p out) (hf : ∀ a, Moves exec R (out a) (f a) out') : Moves exec R db (p >>= f) out' := by
  intro w
  rw [wp_bind]
  exact wp_use (hp w) (fun a w' h => wp_use (hf a w') (fun b w'' h' => ht _ _ _ h h'))

theorem Moves.ite {db : S} {c : Prop} [Decidable c] {q : Prog O A α} (hp : c → Moves exec R db p out)
    (hq : ¬ c → Moves exec R db q out) : Moves exec R db (if c then p else q) out := by
  split
  · exact hp ‹_›
  · exact hq ‹_›

theorem Moves.from (ht : ∀ x y z, R x y → R y z → R x z) {db db' : S} (h : ∀ w, R (db, w) (db', w))
    (hp : Moves exec R db' p out) : Moves exec R db p out :=
  fun w => wp_use (hp w) (fun _ _ h' => ht _ _ _ (h w) h')

end

/-! ## Answers -/

section
variable {exec : σ → O → A × σ} {Q : α → Prop}

/-- From every state, what `p` answers meets `Q`. -/
def Answers (exec : σ → O → A × σ) (p : Prog O A α) (Q : α → Prop) : Prop :=
  ∀ s, wp exec (fun _ => True) p (fun a _ => Q a) s

theorem Answers.pure {a : α} (h : Q a) : Answers exec (pure a) Q := fun _ => h

theorem Answers.any (h : ∀ a, Q a) : Answers exec p Q := fun s => wp_any (fun a _ => h a) s

theorem Answers.bind {R : β → Prop} {p : Prog O A β} {f : β → Prog O A α} (hp : Answers exec p R)
    (hf : ∀ b, R b → Answers exec (f b) Q) : Answers exec (p >>= f) Q := by
  intro s
  rw [wp_bind]
  exact wp_use (hp s) (fun b s' hb => hf b hb s')

theorem Answers.ite {c : Prop} [Decidable c] {q : Prog O A α} (hp : c → Answers exec p Q)
    (hq : ¬ c → Answers exec q Q) : Answers exec (if c then p else q) Q := by
  split
  · exact hp ‹_›
  · exact hq ‹_›

theorem Answers.post {R : α → Prop} (hp : Answers exec p R) (h : ∀ a, R a → Q a) : Answers exec p Q :=
  fun s => wp_use (hp s) (fun a _ ha => h a ha)

end

end Prog

/-! ## Stateful steps -/

def Does {σ α : Type} (P : σ → Prop) (m : StateM σ α) (Q : α → σ → Prop) : Prop := ∀ s, P s → Q (m s).1 (m s).2

namespace Does

variable {σ α β : Type} {P P' : σ → Prop} {Q Q' : α → σ → Prop} {m : StateM σ α}

theorem weaken (h : Does P' m Q') (hP : ∀ s, P s → P' s) (hQ : ∀ a s, Q' a s → Q a s) : Does P m Q :=
  fun s hs => hQ _ _ (h s (hP s hs))

theorem pre {I : σ → Prop} (h : Does I m Q) (hP : ∀ s, P s → I s) : Does P m Q := h.weaken hP (fun _ _ hq => hq)

theorem post (h : Does P m Q') (hQ : ∀ a s, Q' a s → Q a s) : Does P m Q := h.weaken (fun _ hp => hp) hQ

theorem pure {a : α} (h : ∀ s, P s → Q a s) : Does P (pure a) Q := h

theorem bind {R : β → σ → Prop} {m : StateM σ β} {f : β → StateM σ α} (hm : Does P m R) (hf : ∀ b, Does (R b) (f b) Q) :
    Does P (m >>= f) Q :=
  fun s hs => hf (m s).1 (m s).2 (hm s hs)

theorem get {f : σ → StateM σ α} (h : ∀ s, P s → Does (fun s' => s' = s) (f s) Q) : Does P (get >>= f) Q :=
  fun s hs => h s hs s rfl

theorem modify {P : σ → Prop} {Q : Unit → σ → Prop} {f : σ → σ} (h : ∀ s, P s → Q () (f s)) : Does P (modify f) Q := h

theorem ite {c : Prop} [Decidable c] {n : StateM σ α} (hm : c → Does P m Q) (hn : ¬ c → Does P n Q) :
    Does P (if c then m else n) Q := by
  by_cases hc : c
  · rw [if_pos hc]
    exact hm hc
  · rw [if_neg hc]
    exact hn hc

theorem each (h : ∀ s, P s → Does (fun s' => s' = s) m Q) : Does P m Q := fun s hs => h s hs s rfl

theorem at_state {s : σ} (h : Does P m Q) (hs : P s) : Does (fun s' => s' = s) m Q := fun s' he => by
  rw [he]
  exact h s hs

end Does

end Gbasic
