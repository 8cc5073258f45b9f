import Gbasic.LsmReplaySafe
/-!
# LsmSpell — the bytes a decoder takes

`Spells d R`: the decoder takes bytes from where it stands just when they spell a value, and gives that value.  Rules
for the decoders' steps, each an equivalence, so that what holds of a whole decoder is both that what was written is
read back and that nothing else is.
-/
namespace Gbasic
namespace Raw

open Lsm (Status U64)
open List (length_append drop_left append_nil)

variable {α β : Type}

@[ext] theorem Cursor.ext {c c' : Cursor} (hp : c.pos = c'.pos) (hr : c.rest = c'.rest) : c = c' := by
  cases c
  cases c'
  cases hp
  cases hr
  rfl

/-- The decoder gives `a` and goes on past `l` just when `l` spells `a`. -/
def Spells (d : Cursor → Decoder (α × Cursor)) (R : α → List Byte → Prop) : Prop :=
  ∀ (c : Cursor) (a : α) (c' : Cursor),
    d c = .ok (a, c') ↔ ∃ l, R a l ∧ c.rest = l ++ c'.rest ∧ c'.pos = c.pos + l.length

variable {d : Cursor → Decoder (α × Cursor)} {R : α → List Byte → Prop}

theorem Spells.congr {R' : α → List Byte → Prop} (h : Spells d R) (hR : ∀ a l, R a l ↔ R' a l) : Spells d R' := by
  intro c a c'
  rw [h c a c']
  simp only [hR]

theorem Spells.pure (a : α) : Spells (fun c => .ok (a, c)) (fun b l => b = a ∧ l = []) := by
  intro c b c'
  beta_reduce
  constructor
  · intro h
    cases h
    exact ⟨[], ⟨rfl, rfl⟩, rfl, rfl⟩
  · rintro ⟨l, ⟨rfl, rfl⟩, hr, hp⟩
    have hc : c = c' := Cursor.ext hp.symm hr
    rw [hc]

theorem Spells.bind {f : α × Cursor → Decoder (β × Cursor)} {T : α → β → List Byte → Prop} (hd : Spells d R)
    (hf : ∀ a, Spells (fun c => f (a, c)) (T a)) :
    Spells (fun c => d c >>= f) (fun b l => ∃ a l₁ l₂, l = l₁ ++ l₂ ∧ R a l₁ ∧ T a b l₂) := by
  intro c b c'
  beta_reduce
  constructor
  · intro h
    rcases hx : d c with s | ⟨a, c₁⟩
    · rw [hx] at h
      cases h
    · rw [hx] at h
      obtain ⟨l₁, h₁, hr₁, hp₁⟩ := (hd c a c₁).1 hx
      obtain ⟨l₂, h₂, hr₂, hp₂⟩ := (hf a c₁ b c').1 h
      refine ⟨l₁ ++ l₂, ⟨a, l₁, l₂, rfl, h₁, h₂⟩, ?_, ?_⟩
      · rw [hr₁, hr₂, List.append_assoc]
      · rw [hp₂, hp₁, length_append, Nat.add_assoc]
  · rintro ⟨l, ⟨a, l₁, l₂, rfl, h₁, h₂⟩, hr, hp⟩
    have hsmall := c.small
    rw [hr, length_append, length_append] at hsmall
    rw [length_append] at hp
    let c₁ : Cursor := ⟨c.pos + l₁.length, l₂ ++ c'.rest, by rw [length_append]; omega⟩
    have hx : d c = .ok (a, c₁) := (hd c a c₁).2 ⟨l₁, h₁, by rw [hr, List.append_assoc], rfl⟩
    rw [hx]
    exact (hf a c₁ b c').2 ⟨l₂, h₂, rfl, by show _ = c.pos + l₁.length + _; omega⟩

/-! ## Integers, strings of bytes -/

theorem lePut_leNat : ∀ l : List Byte, lePut l.length (leNat l) = l
  | [] => rfl
  | b :: l => by
    have hb : byte (b.val + 256 * leNat l) = b := by
      apply Fin.ext
      rw [byte_val]
      omega
    have hd : (b.val + 256 * leNat l) / 256 = leNat l := by omega
    rw [leNat, List.length_cons, lePut, hb, hd, lePut_leNat l]

theorem spells_bytes (n : Nat) : Spells (fun c => c.bytes n) (fun s l => s = l ∧ l.length = n) := by
  intro c s c'
  beta_reduce
  simp only [Cursor.bytes]
  constructor
  · intro h
    split_ifs at h with hn
    · cases h
      have hl : (c.rest.take n).length = n := by rw [List.length_take]; omega
      refine ⟨_, ⟨rfl, hl⟩, (List.take_append_drop n c.rest).symm, ?_⟩
      show c.pos + min n c.rest.length = _
      rw [hl]
      omega
  · rintro ⟨l, ⟨rfl, rfl⟩, hr, hp⟩
    have hn : s.length ≤ c.rest.length := by
      rw [hr, length_append]
      omega
    have hc : c.advance s.length = c' := by
      refine Cursor.ext ?_ ?_
      · show c.pos + min s.length c.rest.length = c'.pos
        omega
      · show c.rest.drop s.length = c'.rest
        rw [hr, drop_left]
    rw [if_pos hn, hc, hr, List.take_left]
    rfl

theorem spells_le (w : Nat) : Spells (fun c => c.le w) (fun n l => n < 256 ^ w ∧ l = lePut w n) := by
  refine ((spells_bytes w).bind (fun s => .pure (leNat s))).congr (fun n l => ?_)
  constructor
  · rintro ⟨s, l₁, l₂, rfl, ⟨rfl, rfl⟩, rfl, rfl⟩
    exact ⟨leNat_lt s, by rw [append_nil, lePut_leNat]⟩
  · rintro ⟨hn, rfl⟩
    exact ⟨_, _, [], (append_nil _).symm, ⟨rfl, length_lePut w n⟩, (leNat_lePut w n hn).symm, rfl⟩

def U64Of (n : Nat) (l : List Byte) : Prop := n < U64 ∧ l = lePut 8 n

theorem spells_getU64 : Spells (fun c => Sums.machine.getU64 c) U64Of := by
  intro c n c'
  beta_reduce
  have hi : c.le 8 = .ok (n, c') ↔ ∃ l, U64Of n l ∧ c.rest = l ++ c'.rest ∧ c'.pos = c.pos + l.length :=
    spells_le 8 c n c'
  rw [← hi]
  rw [Sums.getU64, fits_few _ (show 8 ≤ 2 ^ 32 by decide)]
  by_cases hn : 8 ≤ c.rest.length
  · rw [if_pos hn]
    rfl
  · rw [if_neg hn]
    have hb : c.bytes 8 = .error .outside := if_neg hn
    rw [Cursor.le, hb]
    constructor <;> intro h <;> cases h

def StringOf (s l : List Byte) : Prop := ∃ a, ulebGet 10 0 0 a = some (s.length, []) ∧ l = a ++ s

theorem spells_varint : Spells (fun c => c.varint) (fun n l => ulebGet 10 0 0 l = some (n, [])) := by
  intro c n c'
  beta_reduce
  rw [Cursor.varint]
  constructor
  · intro h
    rcases hu : ulebGet 10 0 0 c.rest with _ | ⟨v, r⟩
    · rw [hu] at h
      cases h
    · rw [hu] at h
      obtain ⟨p, hp, hpu⟩ := ulebGet_strip 10 0 0 c.rest hu
      have hl : c.rest.length - r.length = p.length := by
        rw [hp, length_append]
        omega
      dsimp only at h
      rw [hl] at h
      cases h
      refine ⟨p, hpu, ?_, ?_⟩
      · show c.rest = p ++ c.rest.drop p.length
        rw [hp, drop_left]
      · show c.pos + min p.length c.rest.length = c.pos + p.length
        rw [hp, length_append]
        omega
  · rintro ⟨l, hl, hr, hp⟩
    have hu : ulebGet 10 0 0 c.rest = some (n, c'.rest) := by
      rw [hr]
      simpa using ulebGet_append 10 0 0 l c'.rest hl
    rw [hu]
    have hc : c.advance (c.rest.length - c'.rest.length) = c' := by
      have hlen : c.rest.length - c'.rest.length = l.length := by
        rw [hr, length_append]
        omega
      rw [hlen]
      refine Cursor.ext ?_ ?_
      · show c.pos + min l.length c.rest.length = c'.pos
        rw [hp, hr, length_append]
        omega
      · show c.rest.drop l.length = c'.rest
        rw [hr, drop_left]
    dsimp only
    rw [hc]
    rfl

theorem machine_fits {n : Nat} {c : Cursor} (h : n ≤ c.rest.length) :
    Sums.machine.fits [c.pos + n + 0] c.limit = .ok () := by
  have hpos : c.limit = c.pos + c.rest.length := rfl
  have hmod := Nat.mod_le (c.pos + n + 0) U64
  refine if_pos ?_
  simp only [List.mem_singleton, forall_eq]
  omega

theorem spells_getBytes : Spells (fun c => getBytes .machine c) StringOf := by
  have hs : Spells (fun c => c.varint >>= fun x => x.2.bytes x.1)
      (fun s l => ∃ n l₁ l₂, l = l₁ ++ l₂ ∧ ulebGet 10 0 0 l₁ = some (n, []) ∧ s = l₂ ∧ l₂.length = n) :=
    spells_varint.bind (fun n => spells_bytes n)
  intro c s c'
  beta_reduce
  rw [show (∃ l, StringOf s l ∧ c.rest = l ++ c'.rest ∧ c'.pos = c.pos + l.length) ↔
      (c.varint >>= fun x => x.2.bytes x.1) = .ok (s, c') from ?_]
  · rw [getBytes, Sums.sized]
    rcases hv : c.varint with stop | ⟨n, c₁⟩
    · exact Iff.rfl
    · show (Sums.machine.fits [c₁.pos + n + 0] c₁.limit >>= fun _ => c₁.bytes n) = _ ↔ c₁.bytes n = _
      by_cases hn : n ≤ c₁.rest.length
      · rw [machine_fits hn]
        rfl
      · rw [Cursor.bytes, if_neg hn]
        rcases Sums.machine.fits [c₁.pos + n + 0] c₁.limit with stop | u
        · constructor <;> intro h <;> cases h
        · constructor <;> intro h <;> cases h
  · rw [hs c s c']
    constructor
    · rintro ⟨l, ⟨a, ha, rfl⟩, hr, hp⟩
      exact ⟨a ++ s, ⟨_, a, s, rfl, ha, rfl, rfl⟩, hr, hp⟩
    · rintro ⟨l, ⟨n, a, s', rfl, ha, rfl, rfl⟩, hr, hp⟩
      exact ⟨a ++ s, ⟨a, ha, rfl⟩, hr, hp⟩

/-! ## Lists -/

inductive Row (R : α → List Byte → Prop) : List α → List Byte → Prop
  | nil : Row R [] []
  | cons {a l as m} (h : R a l) (t : Row R as m) : Row R (a :: as) (l ++ m)

theorem spells_times (h : Spells d R) : ∀ n : Nat, Spells (fun c => times d n c)
    (fun as l => as.length = n ∧ Row R as l)
  | 0 => by
    refine (Spells.pure []).congr (fun as l => ?_)
    constructor
    · rintro ⟨rfl, rfl⟩
      exact ⟨rfl, .nil⟩
    · rintro ⟨hl, hr⟩
      cases hr with
      | nil => exact ⟨rfl, rfl⟩
      | cons _ _ => cases hl
  | n + 1 => by
    refine (h.bind (fun a => (spells_times h n).bind (fun as => .pure (a :: as)))).congr (fun as l => ?_)
    constructor
    · rintro ⟨a, l₁, l₂, rfl, ha, as', l₃, l₄, rfl, ⟨hl, hr⟩, rfl, rfl⟩
      rw [append_nil]
      exact ⟨by rw [List.length_cons, hl], .cons ha hr⟩
    · rintro ⟨hl, hr⟩
      cases hr with
      | nil => cases hl
      | cons ha hr =>
        refine ⟨_, _, _, rfl, ha, _, _, [], (append_nil _).symm, ⟨?_, hr⟩, rfl, rfl⟩
        simpa using hl

def CountedOf (R : α → List Byte → Prop) (as : List α) (l : List Byte) : Prop :=
  ∃ m, Row R as m ∧ as.length < U64 ∧ l = lePut 8 as.length ++ m

theorem Row.length_le (hR : ∀ a l, R a l → l ≠ []) : ∀ {as : List α} {l : List Byte}, Row R as l → as.length ≤ l.length
  | _, _, .nil => le_rfl
  | _, _, .cons h t => by
    have h₁ := List.length_pos_iff.2 (hR _ _ h)
    have h₂ := Row.length_le hR t
    rw [List.length_cons, length_append]
    omega

theorem spells_counted (h : Spells d R) (hR : ∀ a l, R a l → l ≠ []) :
    Spells (fun c => counted .machine d c) (CountedOf R) := by
  have hs : Spells (fun c => Sums.machine.getU64 c >>= fun x => times d x.1 x.2)
      (fun as l => ∃ n l₁ l₂, l = l₁ ++ l₂ ∧ U64Of n l₁ ∧ as.length = n ∧ Row R as l₂) :=
    spells_getU64.bind (fun n => spells_times h n)
  have hs : Spells (fun c => Sums.machine.getU64 c >>= fun x => times d x.1 x.2) (CountedOf R) := by
    refine hs.congr (fun as l => ?_)
    constructor
    · rintro ⟨n, l₁, l₂, rfl, ⟨hn, rfl⟩, rfl, hr⟩
      exact ⟨l₂, hr, hn, rfl⟩
    · rintro ⟨m, hr, hn, rfl⟩
      exact ⟨_, _, m, rfl, ⟨hn, rfl⟩, rfl, hr⟩
  intro c as c'
  beta_reduce
  have hi := hs c as c'
  beta_reduce at hi
  rw [← hi]
  rcases hu : Sums.machine.getU64 c with stop | ⟨n, c₁⟩
  · rw [counted, hu]
    exact Iff.rfl
  · rw [counted, hu]
    show (if c₁.limit < n then corrupt else times d n c₁) = _ ↔ times d n c₁ = _
    by_cases hn : c₁.limit < n
    · -- more than there are bytes
      rw [if_pos hn]
      refine ⟨fun h => (by cases h), fun ht => ?_⟩
      obtain ⟨l, ⟨rfl, hr⟩, hrest, -⟩ := (spells_times h n c₁ as c').1 ht
      have h₁ := hr.length_le hR
      have h₂ : c₁.limit = c₁.pos + c₁.rest.length := rfl
      rw [hrest, length_append] at h₂
      omega
    · rw [if_neg hn]

end Raw
end Gbasic
