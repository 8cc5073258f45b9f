import Gbasic.LsmManifestRound
import Gbasic.LsmSeek
/-!
# LsmSst — the bytes of a sorted file's blocks and index

What the decoders of a block and of the index take is what `putEnt` and `putIdx` write, but that a length may take more
bytes than it needs.  Two rows of which one begins the other are so themselves (`Row.begins`): of a block or an index
cut short only members that were written come back, and not all of them.
-/
namespace Gbasic
namespace Raw

open Lsm (Status SEAL TRAIL FHDR FOOTER U64)

variable {α β : Type}

variable {l : List Byte} {R : α → List Byte → Prop} {d : Cursor → Decoder (α × Cursor)}

/-! ## Strings with something after them -/

/-- A string, and what takes at least `w` bytes more. -/
theorem Spells.sized {w : Nat} {f : List Byte × Cursor → Decoder (β × Cursor)} {T : List Byte → β → List Byte → Prop}
    (hf : ∀ s, Spells (fun c => f (s, c)) (T s)) (hT : ∀ s b l, T s b l → w ≤ l.length) (he : w ≤ 2 ^ 32) :
    Spells (fun c => Sums.machine.sized w c >>= f) (fun b l => ∃ s l₁ l₂, l = l₁ ++ l₂ ∧ StringOf s l₁ ∧ T s b l₂) := by
  have hs : Spells (fun c => getBytes .machine c >>= f)
      (fun b l => ∃ s l₁ l₂, l = l₁ ++ l₂ ∧ StringOf s l₁ ∧ T s b l₂) := spells_getBytes.bind hf
  intro c b c'
  beta_reduce
  rw [← hs c b c']
  beta_reduce
  simp only [getBytes, Sums.sized]
  rcases c.varint with stop | ⟨n, c₁⟩
  · exact Iff.rfl
  · show ((Sums.machine.fits [c₁.pos + n + w] c₁.limit >>= fun _ => c₁.bytes n) >>= f) = _ ↔
      ((Sums.machine.fits [c₁.pos + n + 0] c₁.limit >>= fun _ => c₁.bytes n) >>= f) = _
    have hpos : c₁.limit = c₁.pos + c₁.rest.length := rfl
    have hsmall := c₁.small
    by_cases hn : n ≤ c₁.rest.length
    · have hb : c₁.bytes n = .ok (c₁.rest.take n, c₁.advance n) := if_pos hn
      rw [machine_fits hn, hb]
      by_cases hx : n + w ≤ c₁.rest.length
      · have hfit : Sums.machine.fits [c₁.pos + n + w] c₁.limit = .ok () := by
          refine if_pos ?_
          simp only [List.mem_singleton, forall_eq]
          have hmod := Nat.mod_le (c₁.pos + n + w) U64
          omega
        rw [hfit]
      · have hfit : Sums.machine.fits [c₁.pos + n + w] c₁.limit = corrupt := by
          refine if_neg ?_
          simp only [List.mem_singleton, forall_eq]
          have hU : U64 = 2 ^ 64 := rfl
          rw [Nat.mod_eq_of_lt (by omega)]
          omega
        rw [hfit]
        refine ⟨fun h => (by cases h), fun h => ?_⟩
        obtain ⟨l, hl, hr, -⟩ := (hf _ _ b c').1 h
        have hlen := hT _ _ _ hl
        have hr := congrArg List.length hr
        simp only [Cursor.advance, List.length_drop, List.length_append] at hr
        omega
    · have hb : c₁.bytes n = .error .outside := if_neg hn
      rw [hb]
      rcases Sums.machine.fits [c₁.pos + n + w] c₁.limit with stop | u
      · rcases Sums.machine.fits [c₁.pos + n + 0] c₁.limit with stop | u
        · constructor <;> intro h <;> cases h
        · constructor <;> intro h <;> cases h
      · rcases Sums.machine.fits [c₁.pos + n + 0] c₁.limit with stop | u
        · constructor <;> intro h <;> cases h
        · constructor <;> intro h <;> cases h

/-! ## Blocks -/

def EntOf (e : Ent) (l : List Byte) : Prop :=
  ∃ a b, StringOf e.k a ∧ StringOf e.v b ∧ (e.seq < 256 ^ 8 ∧ e.type < 256 ^ 1) ∧
    l = a ++ (lePut 8 e.seq ++ (lePut 1 e.type ++ b))

theorem spells_blockEnt : Spells (fun c => blockEnt .machine c) EntOf := by
  refine (Spells.sized (w := 9) (fun k => (spells_le 8).bind (fun seq => (spells_le 1).bind (fun type =>
    spells_getBytes.bind (fun v => .pure (Ent.mk k seq type v))))) ?_ (by decide)).congr (fun e l => ?_)
  · rintro k e l ⟨seq, _, _, rfl, ⟨-, rfl⟩, type, _, _, rfl, ⟨-, rfl⟩, -⟩
    simp only [List.length_append, length_lePut]
    omega
  · constructor
    · rintro ⟨k, a, _, rfl, ha, seq, _, _, rfl, ⟨h₁, rfl⟩, type, _, _, rfl, ⟨h₂, rfl⟩, v, b, _, rfl, hb, rfl, rfl⟩
      rw [List.append_nil]
      exact ⟨a, b, ha, hb, ⟨h₁, h₂⟩, rfl⟩
    · rintro ⟨a, b, ha, hb, ⟨h₁, h₂⟩, rfl⟩
      exact ⟨_, a, _, rfl, ha, _, _, _, rfl, ⟨h₁, rfl⟩, _, _, _, rfl, ⟨h₂, rfl⟩, _, b, [], (List.append_nil b).symm, hb,
        rfl, rfl⟩

theorem StringOf.ne_nil {s : List Byte} (h : StringOf s l) : l ≠ [] := by
  obtain ⟨a, ha, rfl⟩ := h
  obtain ⟨p, hp, hpa⟩ := ulebGet_rest 10 0 0 a ha
  intro he
  rw [hpa, List.append_nil] at he
  exact hp (List.append_eq_nil_iff.1 he).1

theorem EntOf.ne_nil (e : Ent) (l : List Byte) (h : EntOf e l) : l ≠ [] := by
  obtain ⟨a, b, ha, -, -, rfl⟩ := h
  exact fun he => ha.ne_nil (List.append_eq_nil_iff.1 he).1

theorem Row.nil_iff (hR : ∀ a l, R a l → l ≠ []) {as : List α} : Row R as [] ↔ as = [] := by
  constructor
  · intro h
    have hl := h.length_le hR
    exact List.length_eq_zero_iff.1 (by simpa using hl)
  · rintro rfl
    exact .nil

theorem Row.of_nil (h : Row R [] l) : l = [] := by
  cases h
  rfl

theorem blockEnts_all (es : List Ent) : ∀ (n : Nat) (c : Cursor),
    (∃ c', blockEnts .machine n c = .ok (es, c') ∧ es.length = n ∧ c'.rest = []) ↔ Row EntOf es c.rest ∧ es.length = n
  | 0, c => by
    constructor
    · rintro ⟨c', h, hl, hr⟩
      cases h
      rw [hr]
      exact ⟨.nil, rfl⟩
    · rintro ⟨hr, hl⟩
      obtain rfl := List.length_eq_zero_iff.1 hl
      exact ⟨c, rfl, rfl, hr.of_nil⟩
  | n + 1, c => by
    rw [blockEnts]
    by_cases hc : c.rest = []
    · rw [if_pos hc, hc]
      constructor
      · rintro ⟨c', h, hl, -⟩
        cases h
        cases hl
      · rintro ⟨hr, hl⟩
        rw [(Row.nil_iff EntOf.ne_nil).1 hr] at hl
        cases hl
    rw [if_neg hc]
    constructor
    · rintro ⟨c', h, hl, hr⟩
      rcases he : blockEnt .machine c with stop | ⟨e, c₁⟩
      · rw [he] at h
        cases h
      rcases hes : blockEnts .machine n c₁ with stop | ⟨es₁, c₂⟩
      · rw [he] at h
        simp only [hes, bind, Except.bind] at h
        cases h
      rw [he] at h
      simp only [hes, bind, Except.bind, pure, Except.pure, Except.ok.injEq, Prod.mk.injEq] at h
      obtain ⟨rfl, rfl⟩ := h
      obtain ⟨l, hl₁, hr₁, -⟩ := (spells_blockEnt c e c₁).1 he
      have ih := (blockEnts_all es₁ n c₁).1 ⟨c₂, hes, Nat.succ.inj hl, hr⟩
      rw [hr₁]
      exact ⟨.cons hl₁ ih.1, hl⟩
    · rintro ⟨hr, hl⟩
      have hsmall := c.small
      generalize hrest : c.rest = rest at hr
      rcases hr with _ | @⟨e, l, es₁, m, h, t⟩
      · cases hl
      · rw [hrest, List.length_append] at hsmall
        let c₁ : Cursor := ⟨c.pos + l.length, m, by omega⟩
        have he : blockEnt .machine c = .ok (e, c₁) := (spells_blockEnt c e c₁).2 ⟨l, h, hrest, rfl⟩
        obtain ⟨c₂, hes, -, hr₂⟩ := (blockEnts_all es₁ n c₁).2 ⟨t, Nat.succ.inj hl⟩
        refine ⟨c₂, ?_, hl, hr₂⟩
        rw [he]
        simp only [bind, Except.bind, hes]
        rfl

theorem blockParse_iff {raw : Buffer} {count : Nat} {es : List Ent} :
    blockParse .machine raw count = .ok es ↔
      Row EntOf es (raw.window 0 (raw.size - TRAIL)).bytes ∧ es.length = count := by
  show _ ↔ Row EntOf es (raw.window 0 (raw.size - TRAIL)).cursor.rest ∧ _
  rw [← blockEnts_all es count (raw.window 0 (raw.size - TRAIL)).cursor, blockParse]
  rcases hb : blockEnts .machine count (raw.window 0 (raw.size - TRAIL)).cursor with stop | ⟨es', c'⟩
  · constructor
    · intro h
      cases h
    · rintro ⟨c, h, -⟩
      cases h
  · show (if es'.length = count ∧ c'.rest = [] then (.ok es' : Decoder (List Ent)) else corrupt) = _ ↔ _
    constructor
    · intro h
      split_ifs at h with hc
      · cases h
        exact ⟨c', rfl, hc⟩
      · cases h
    · rintro ⟨c, h, hc⟩
      cases h
      rw [if_pos hc]

/-! ## The index -/

def IdxOf (ioff : Nat) (e : IdxEntry) (l : List Byte) : Prop :=
  ∃ a, StringOf e.last a ∧ (e.lastseq < 256 ^ 8 ∧ e.off < 256 ^ 8 ∧ e.size < 256 ^ 4) ∧
  (FHDR ≤ e.off ∧ e.off + e.size ≤ ioff) ∧ l = a ++ (lePut 8 e.lastseq ++ (lePut 8 e.off ++ lePut 4 e.size))

theorem IdxOf.ne_nil (ioff : Nat) (e : IdxEntry) (l : List Byte) (h : IdxOf ioff e l) : l ≠ [] := by
  obtain ⟨a, ha, -, -, rfl⟩ := h
  exact fun he => ha.ne_nil (List.append_eq_nil_iff.1 he).1

theorem machine_ranges {n limit : Nat} : Sums.machine.ranges [n] limit = .ok () ↔ n ≤ limit := by
  simp only [Sums.ranges, Sums.fits, within, List.mem_singleton, forall_eq]
  have hmod := Nat.mod_le n U64
  constructor
  · intro h
    by_contra hc
    rw [if_neg hc] at h
    split_ifs at h <;> cases h
  · intro h
    rw [if_pos h, if_pos (hmod.trans h)]
    rfl

theorem spells_idxEntry (ioff : Nat) : Spells (fun c => idxEntry .machine ioff c) (IdxOf ioff) := by
  have hend : ∀ (last : List Byte) (lastseq off size : Nat), Spells (fun c : Cursor =>
      if off < FHDR then corrupt
      else do
        Sums.machine.ranges [off + size] ioff
        return (IdxEntry.mk last lastseq off size, c))
      (fun e l => e = ⟨last, lastseq, off, size⟩ ∧ l = [] ∧ FHDR ≤ off ∧ off + size ≤ ioff) := by
    intro last lastseq off size c e c'
    beta_reduce
    by_cases ho : off < FHDR
    · rw [if_pos ho]
      constructor
      · intro h
        cases h
      · rintro ⟨l, ⟨-, -, h, -⟩, -⟩
        omega
    rw [if_neg ho]
    rcases hr : Sums.machine.ranges [off + size] ioff with stop | u
    · constructor
      · intro h
        cases h
      · rintro ⟨l, ⟨-, -, -, h⟩, -⟩
        rw [machine_ranges.2 h] at hr
        cases hr
    · constructor
      · intro h
        cases h
        exact ⟨[], ⟨rfl, rfl, by omega, machine_ranges.1 hr⟩, rfl, rfl⟩
      · rintro ⟨l, ⟨rfl, rfl, -, -⟩, hr, hp⟩
        have hc : c = c' := Cursor.ext hp.symm hr
        rw [hc]
        rfl
  refine (Spells.sized (w := 20) (fun last => (spells_le 8).bind (fun lastseq => (spells_le 8).bind (fun off =>
    (spells_le 4).bind (fun size => hend last lastseq off size)))) ?_ (by decide)).congr (fun e l => ?_)
  · rintro last e l ⟨lastseq, _, _, rfl, ⟨-, rfl⟩, off, _, _, rfl, ⟨-, rfl⟩, size, _, _, rfl, ⟨-, rfl⟩, -⟩
    simp only [List.length_append, length_lePut]
    omega
  · constructor
    · rintro ⟨last, a, _, rfl, ha, lastseq, _, _, rfl, ⟨h₁, rfl⟩, off, _, _, rfl, ⟨h₂, rfl⟩, size, _, _, rfl,
        ⟨h₃, rfl⟩, rfl, rfl, h₄⟩
      rw [List.append_nil]
      exact ⟨a, ha, ⟨h₁, h₂, h₃⟩, h₄, rfl⟩
    · rintro ⟨a, ha, ⟨h₁, h₂, h₃⟩, h₄, rfl⟩
      exact ⟨_, a, _, rfl, ha, _, _, _, rfl, ⟨h₁, rfl⟩, _, _, _, rfl, ⟨h₂, rfl⟩, _, _, [], (List.append_nil _).symm,
        ⟨h₃, rfl⟩, rfl, rfl, h₄⟩

theorem whileLeft_iff (hd : Spells d R) (hR : ∀ a l, R a l → l ≠ []) :
    ∀ (n : Nat) (c : Cursor) (as : List α), c.rest.length ≤ n →
      (whileLeft d n c = .ok as ↔ Row R as c.rest) := by
  intro n
  induction n with
  | zero =>
    intro c as hn
    have hc : c.rest = [] := List.length_eq_zero_iff.1 (by omega)
    rw [whileLeft, if_pos hc, hc, Row.nil_iff hR]
    constructor
    · intro h
      cases h
      rfl
    · rintro rfl
      rfl
  | succ n ih =>
    intro c as hn
    rw [whileLeft]
    by_cases hc : c.rest = []
    · rw [if_pos hc, hc, Row.nil_iff hR]
      constructor
      · intro h
        cases h
        rfl
      · rintro rfl
        rfl
    rw [if_neg hc]
    dsimp only
    constructor
    · intro h
      rcases ha : d c with stop | ⟨a, c₁⟩
      · rw [ha] at h
        cases h
      obtain ⟨l, hl, hr, -⟩ := (hd c a c₁).1 ha
      have hpos := List.length_pos_iff.2 (hR a l hl)
      have hlen := congrArg List.length hr
      rw [List.length_append] at hlen
      rcases hs : whileLeft d n c₁ with stop | as₁
      · rw [ha] at h
        simp only [bind, Except.bind, hs] at h
        cases h
      rw [ha] at h
      simp only [bind, Except.bind, hs, pure, Except.pure, Except.ok.injEq] at h
      rw [← h, hr]
      exact .cons hl ((ih c₁ as₁ (by omega)).1 hs)
    · intro hr
      have hsmall := c.small
      generalize hrest : c.rest = rest at hr
      rcases hr with _ | @⟨a, l, as₁, m, h, t⟩
      · exact absurd hrest hc
      · have hpos := List.length_pos_iff.2 (hR a l h)
        rw [hrest, List.length_append] at hsmall hn
        let c₁ : Cursor := ⟨c.pos + l.length, m, by omega⟩
        have ha : d c = .ok (a, c₁) := (hd c a c₁).2 ⟨l, h, hrest, rfl⟩
        have hs := (ih c₁ as₁ (by show m.length ≤ n; omega)).2 t
        rw [ha]
        simp only [bind, Except.bind, hs]
        rfl

/-! ## Rows that begin others -/

theorem Spells.unique (hd : Spells d R) {a b : α} {m x y : List Byte} (ha : R a l) (hb : R b m) (he : l ++ x = m ++ y)
    (hs : (l ++ x).length < 2 ^ 63) : a = b ∧ l = m ∧ x = y := by
  have hsx : l.length + x.length < 2 ^ 63 := by rwa [List.length_append] at hs
  have hsy : m.length + y.length < 2 ^ 63 := by rwa [he, List.length_append] at hs
  have h₁ : d ⟨0, l ++ x, by omega⟩ = .ok (a, ⟨l.length, x, hsx⟩) := (hd _ a _).2 ⟨l, ha, rfl, by simp⟩
  have h₂ : d ⟨0, l ++ x, by omega⟩ = .ok (b, ⟨m.length, y, hsy⟩) := (hd _ b _).2 ⟨m, hb, he, by simp⟩
  rw [h₁] at h₂
  simp only [Except.ok.injEq, Prod.mk.injEq, Cursor.mk.injEq] at h₂
  obtain ⟨rfl, -, rfl⟩ := h₂
  exact ⟨rfl, List.append_cancel_right he, rfl⟩

theorem Row.begins (hd : Spells d R) (hR : ∀ a l, R a l → l ≠ []) {as : List α} (h : Row R as l) :
    ∀ {bs : List α} {m x : List Byte},
    Row R bs m → l ++ x = m → m.length < 2 ^ 63 → ∃ cs, bs = as ++ cs ∧ (x ≠ [] → cs ≠ []) := by
  induction h with
  | nil =>
    intro bs m x hb he _
    refine ⟨bs, rfl, fun hx hn => hx ?_⟩
    subst hn
    rw [← hb.of_nil, ← he, List.nil_append]
  | @cons a l₁ as l₂ h t ih =>
    intro bs m x hb he hm
    rw [List.append_assoc] at he
    rcases hb with _ | @⟨b, m₁, bs, m₂, h', t'⟩
    · exact absurd (List.append_eq_nil_iff.1 he).1 (hR a l₁ h)
    · obtain ⟨rfl, -, he⟩ := hd.unique h h' he (by rw [he]; exact hm)
      rw [List.length_append] at hm
      obtain ⟨cs, rfl, hcs⟩ := ih t' he (by omega)
      exact ⟨cs, rfl, hcs⟩

end Raw
end Gbasic
