import Gbasic.LsmDecode
/-!
# LsmDecodeSafe — which bytes the decoders stay inside

A decoder with the machine's sums is the one with exact sums, a sum on which the two differ (`long`) taken for a run
beyond its buffer (`judge`); and the exact one answers, its reads all inside.  `Safe` says both, and what the answer
has; it follows the decoder's steps (`Safe.bind`).
-/
namespace Gbasic
namespace Raw

open Lsm (Status TRAIL FHDR FOOTER SEAL LOG_PRE LEVELS U64)

variable {α β : Type}

def judge : Decoder α → Decoder α
  | .error .long => .error .outside
  | x => x

@[simp] theorem judge_ok (a : α) : judge (.ok a : Decoder α) = .ok a := rfl
@[simp] theorem judge_long : judge (.error .long : Decoder α) = .error .outside := rfl
@[simp] theorem judge_rc (s : Status) : judge (.error (.rc s) : Decoder α) = .error (.rc s) := rfl

theorem judge_bind (x : Decoder α) (f : α → Decoder β) : judge (x >>= f) = judge x >>= fun a => judge (f a) := by
  cases x with
  | ok a => rfl
  | error s => cases s <;> rfl

/-- It comes to an answer: a result that has `P`, or one of the statuses. -/
def Answers (S : List Status) (P : α → Prop) (x : Decoder α) : Prop :=
  (∃ a, x = .ok a ∧ P a) ∨ ∃ s ∈ S, x = .error (.rc s)

/-- With exact sums it comes to an answer or meets one that wraps, and with the machine's it differs there only. -/
structure Safe (S : List Status) (P : α → Prop) (d : Sums → Decoder α) : Prop where
  judged : d .machine = judge (d .exact)
  answers : Answers S P (d .exact) ∨ d .exact = .error .long

variable {S : List Status} {P : α → Prop} {Q : β → Prop} {d : Sums → Decoder α}

/-- **It answers on the machine just where the exact one meets no sum that wraps.** -/
theorem Safe.iff (h : Safe S P d) : Answers S P (d .machine) ↔ d .exact ≠ .error .long := by
  rw [h.judged]
  rcases h.answers with (⟨a, ha, hp⟩ | ⟨s, hs, ha⟩) | ha
  · rw [ha]
    exact ⟨fun _ => by simp, fun _ => .inl ⟨a, rfl, hp⟩⟩
  · rw [ha]
    exact ⟨fun _ => by simp, fun _ => .inr ⟨s, hs, rfl⟩⟩
  · rw [ha]
    refine ⟨?_, fun hn => absurd rfl hn⟩
    rintro (⟨a, ha', -⟩ | ⟨s, -, ha'⟩) <;> cases ha'

namespace Safe

theorem pure {a : α} (h : P a) : Safe S P (fun _ => .ok a) := ⟨rfl, .inl (.inl ⟨a, rfl, h⟩)⟩

theorem stop {s : Status} (h : s ∈ S) : Safe S P (fun _ => .error (.rc s)) := ⟨rfl, .inl (.inr ⟨s, h, rfl⟩)⟩

theorem bind {f : Sums → α → Decoder β} (h : Safe S P d) (hf : ∀ a, P a → Safe S Q (fun m => f m a)) :
    Safe S Q (fun m => d m >>= f m) := by
  refine ⟨?_, ?_⟩
  · show d .machine >>= f .machine = judge (d .exact >>= f .exact)
    rw [judge_bind, h.judged]
    rcases h.answers with (⟨a, ha, hp⟩ | ⟨s, hs, ha⟩) | ha
    · rw [ha]
      exact (hf a hp).judged
    · rw [ha]
      rfl
    · rw [ha]
      rfl
  · rcases h.answers with (⟨a, ha, hp⟩ | ⟨s, hs, ha⟩) | ha
    · show Answers S Q (d .exact >>= f .exact) ∨ d .exact >>= f .exact = .error .long
      rw [ha]
      exact (hf a hp).answers
    · show Answers S Q (d .exact >>= f .exact) ∨ _
      rw [ha]
      exact .inl (.inr ⟨s, hs, rfl⟩)
    · show _ ∨ d .exact >>= f .exact = .error .long
      rw [ha]
      exact .inr rfl

theorem ite {c : Prop} [Decidable c] {d' : Sums → Decoder α} (h : c → Safe S P d) (h' : ¬ c → Safe S P d') :
    Safe S P (fun m => if c then d m else d' m) := by
  by_cases hc : c
  · simpa only [if_pos hc] using h hc
  · simpa only [if_neg hc] using h' hc

theorem mono {T : List Status} {P' : α → Prop} (h : Safe S P d) (hS : ∀ s ∈ S, s ∈ T) (hP : ∀ a, P a → P' a) :
    Safe T P' d := by
  refine ⟨h.judged, ?_⟩
  rcases h.answers with (⟨a, ha, hp⟩ | ⟨s, hs, ha⟩) | ha
  · exact .inl (.inl ⟨a, ha, hP a hp⟩)
  · exact .inl (.inr ⟨s, hS s hs, ha⟩)
  · exact .inr ha

end Safe

/-! ## Reads -/

/-- Further on in the same bytes. -/
structure Cursor.Past (c c' : Cursor) : Prop where
  suffix : c'.rest <:+ c.rest
  limit : c'.limit = c.limit

namespace Cursor

theorem Past.refl (c : Cursor) : c.Past c := ⟨List.suffix_rfl, rfl⟩

theorem Past.trans {a b c : Cursor} (h : a.Past b) (h' : b.Past c) : a.Past c :=
  ⟨h'.suffix.trans h.suffix, h'.limit.trans h.limit⟩

theorem Past.length {a b : Cursor} (h : a.Past b) : b.rest.length ≤ a.rest.length := h.suffix.length_le

theorem past_advance (c : Cursor) (n : Nat) : c.Past (c.advance n) := by
  refine ⟨List.drop_suffix n c.rest, ?_⟩
  show c.pos + min n c.rest.length + (c.rest.drop n).length = c.pos + c.rest.length
  rw [List.length_drop]
  omega

@[simp] theorem length_advance (c : Cursor) (n : Nat) : (c.advance n).rest.length = c.rest.length - n := by
  show (c.rest.drop n).length = _
  rw [List.length_drop]

end Cursor

variable {c : Cursor}

theorem Safe.bytes {n : Nat} (h : n ≤ c.rest.length) :
    Safe S (fun p => p.1 <:+: c.rest ∧ p.2 = c.advance n) (fun _ => c.bytes n) := by
  have hb : c.bytes n = .ok (c.rest.take n, c.advance n) := if_pos h
  simp only [hb]
  exact .pure ⟨(List.take_prefix n c.rest).isInfix, rfl⟩

theorem Safe.le {w : Nat} (h : w ≤ c.rest.length) : Safe S (fun p => p.2 = c.advance w) (fun _ => c.le w) := by
  refine .bind (Safe.bytes h) (fun p hp => ?_)
  exact .pure hp.2

theorem Safe.varint : Safe [.corrupt] (fun p => c.Past p.2 ∧ p.2.rest.length < c.rest.length) (fun _ => c.varint) := by
  rw [Cursor.varint]
  rcases hu : ulebGet 10 0 0 c.rest with _ | ⟨n, r⟩
  · exact .stop (by simp)
  · obtain ⟨p, hp, hc⟩ := ulebGet_rest 10 0 0 c.rest hu
    have hl := List.length_pos_iff.2 hp
    refine .pure ⟨c.past_advance _, ?_⟩
    rw [Cursor.length_advance, hc, List.length_append]
    omega

theorem Safe.ranges {sums : List Nat} {limit : Nat} :
    Safe [.corrupt] (fun _ => ∀ s ∈ sums, s ≤ limit) (fun m => m.ranges sums limit) := by
  have hw : ∀ s, s ≤ limit → s % U64 ≤ limit := fun s hs => (Nat.mod_le s U64).trans hs
  by_cases he : ∀ s ∈ sums, s ≤ limit
  · have hm : ∀ s ∈ sums, s % U64 ≤ limit := fun s hs => hw s (he s hs)
    simp only [Sums.ranges, within, if_pos he]
    refine ⟨?_, ?_⟩
    · simp only [Sums.fits, if_pos hm, if_pos he]
      rfl
    · simp only [Sums.fits, if_pos he]
      exact .inl (.inl ⟨(), rfl, he⟩)
  · by_cases hm : ∀ s ∈ sums, s % U64 ≤ limit
    · simp only [Sums.ranges, within, if_neg he]
      refine ⟨?_, ?_⟩
      · simp only [Sums.fits, if_pos hm, if_neg he]
        rfl
      · simp only [Sums.fits, if_pos hm, if_neg he]
        exact .inr rfl
    · simp only [Sums.ranges, within, if_neg he]
      refine ⟨?_, ?_⟩
      · simp only [Sums.fits, if_neg hm, if_neg he]
        rfl
      · simp only [Sums.fits, if_neg hm, if_neg he]
        exact .inl (.inr ⟨.corrupt, by simp, rfl⟩)

structure Sized (extra : Nat) (c : Cursor) (p : List Byte × Cursor) : Prop where
  inside : p.1 <:+: c.rest
  past : c.Past p.2
  shorter : p.2.rest.length < c.rest.length
  left : extra ≤ p.2.rest.length

theorem Safe.sized {extra : Nat} (he : extra ≤ 2 ^ 32) :
    Safe [.corrupt] (Sized extra c) (fun m => m.sized extra c) := by
  refine .bind Safe.varint (fun ⟨n, c'⟩ ⟨hp, hl⟩ => ?_)
  have hl : c'.rest.length < c.rest.length := hl
  have hpos : c'.limit = c'.pos + c'.rest.length := rfl
  have hsmall := c'.small
  have hU : U64 = 2 ^ 64 := rfl
  by_cases hn : c'.pos + n + extra ≤ c'.limit
  · -- inside: both tests pass and the bytes are there
    have hb : c'.bytes n = .ok (c'.rest.take n, c'.advance n) := if_pos (by omega)
    have hm : (c'.pos + n + extra) % U64 ≤ c'.limit := (Nat.mod_le _ _).trans hn
    have hall : ∀ m : Sums, m.fits [c'.pos + n + extra] c'.limit = .ok () := by
      intro m
      cases m with
      | machine => exact if_pos (by simpa using hm)
      | exact => exact if_pos (by simpa using hn)
    simp only [hall, hb]
    refine .pure ⟨?_, hp.trans (c'.past_advance n), ?_, ?_⟩
    · exact (List.take_prefix n c'.rest).isInfix.trans hp.suffix.isInfix
    · rw [Cursor.length_advance]
      omega
    · rw [Cursor.length_advance]
      omega
  · by_cases hm : (c'.pos + n + extra) % U64 ≤ c'.limit
    · -- the sum has wrapped, so the length is beyond any buffer
      have hbig : U64 ≤ c'.pos + n + extra := by
        by_contra hlt
        rw [Nat.mod_eq_of_lt (by omega)] at hm
        exact hn hm
      have hb : c'.bytes n = .error .outside := if_neg (by omega)
      have h₁ : Sums.machine.fits [c'.pos + n + extra] c'.limit = .ok () := if_pos (by simpa using hm)
      have h₂ : Sums.exact.fits [c'.pos + n + extra] c'.limit = .error .long := by
        rw [Sums.fits, if_neg (by simpa using hn), if_pos (by simpa using hm)]
      refine ⟨?_, .inr ?_⟩
      · simp only [h₁, h₂, hb]
        rfl
      · simp only [h₂]
        rfl
    · have h₁ : ∀ m : Sums, m.fits [c'.pos + n + extra] c'.limit = corrupt := by
        intro m
        cases m with
        | machine => exact if_neg (by simpa using hm)
        | exact => rw [Sums.fits, if_neg (by simpa using hn), if_neg (by simpa using hm)]
      simp only [h₁]
      exact .stop (by simp)

theorem fits_few (m : Sums) {n : Nat} (hn : n ≤ 2 ^ 32) :
    m.fits [c.pos + n] c.limit = if n ≤ c.rest.length then .ok () else corrupt := by
  have hpos : c.limit = c.pos + c.rest.length := rfl
  have hsmall := c.small
  have hU : U64 = 2 ^ 64 := rfl
  have hmod : (c.pos + n) % U64 = c.pos + n := Nat.mod_eq_of_lt (by omega)
  have hiff : c.pos + n ≤ c.limit ↔ n ≤ c.rest.length := by omega
  cases m with
  | machine =>
    simp only [Sums.fits, List.mem_singleton, forall_eq, hmod, hiff]
    rfl
  | exact =>
    simp only [Sums.fits, List.mem_singleton, forall_eq, hmod, hiff]
    split_ifs <;> rfl

theorem Safe.getU64 :
    Safe [.corrupt] (fun p => c.Past p.2 ∧ p.2.rest.length + 8 = c.rest.length) (fun m => m.getU64 c) := by
  simp only [Sums.getU64, fits_few _ (show 8 ≤ 2 ^ 32 by decide)]
  by_cases hn : 8 ≤ c.rest.length
  · simp only [if_pos hn]
    refine Safe.mono (Safe.le hn) (fun _ h => h) ?_
    rintro ⟨v, c'⟩ rfl
    refine ⟨c.past_advance 8, ?_⟩
    rw [Cursor.length_advance]
    omega
  · simp only [if_neg hn]
    exact .stop (by simp)

/-! ## Loops -/

variable {L : List Byte} {A : α → Prop} {body : Sums → Cursor → Decoder (α × Cursor)}

theorem Safe.times (hb : ∀ c : Cursor, c.rest <:+ L → Safe S (fun p => A p.1 ∧ c.Past p.2) (fun m => body m c)) :
    ∀ (n : Nat) (c : Cursor), c.rest <:+ L →
      Safe S (fun p => (∀ a ∈ p.1, A a) ∧ c.Past p.2) (fun m => times (body m) n c)
  | 0, c, _ => by
    simp only [Raw.times]
    exact .pure ⟨by simp, .refl c⟩
  | n + 1, c, hc => by
    simp only [Raw.times]
    refine .bind (hb c hc) (fun ⟨a, c'⟩ ⟨ha, hp⟩ => ?_)
    refine .bind (Safe.times hb n c' (hp.suffix.trans hc)) (fun ⟨as, c''⟩ ⟨has, hp'⟩ => ?_)
    refine .pure ⟨?_, hp.trans hp'⟩
    intro x hx
    rcases List.mem_cons.1 hx with rfl | hx
    · exact ha
    · exact has x hx

theorem Safe.whileLeft (hb : ∀ c : Cursor, c.rest <:+ L → Safe S
      (fun p => A p.1 ∧ c.Past p.2 ∧ p.2.rest.length < c.rest.length) (fun m => body m c)) :
    ∀ (n : Nat) (c : Cursor), c.rest <:+ L → c.rest.length ≤ n →
      Safe S (fun as => ∀ a ∈ as, A a) (fun m => whileLeft (body m) n c)
  | 0, c, _, hn => by
    have he : c.rest = [] := List.length_eq_zero_iff.1 (by omega)
    simp only [Raw.whileLeft, if_pos he]
    exact .pure (by simp)
  | n + 1, c, hc, hn => by
    by_cases he : c.rest = []
    · simp only [Raw.whileLeft, if_pos he]
      exact .pure (by simp)
    · simp only [Raw.whileLeft, if_neg he]
      refine .bind (hb c hc) (fun ⟨a, c'⟩ ⟨ha, hp, hl⟩ => ?_)
      have hl : c'.rest.length < c.rest.length := hl
      refine .bind (Safe.whileLeft hb n c' (hp.suffix.trans hc) (by omega)) (fun as has => ?_)
      refine .pure ?_
      intro x hx
      rcases List.mem_cons.1 hx with rfl | hx
      · exact ha
      · exact has x hx

/-! ## A sorted file -/

def Ent.Inside (L : List Byte) (e : Ent) : Prop := e.k <:+: L ∧ e.v <:+: L

theorem safe_blockEnt (hc : c.rest <:+ L) :
    Safe [.corrupt] (fun p => p.1.Inside L ∧ c.Past p.2) (fun m => blockEnt m c) := by
  refine .bind (Safe.sized (by decide)) (fun ⟨k, c₁⟩ h₁ => ?_)
  have hleft : 9 ≤ c₁.rest.length := h₁.left
  refine .bind (Safe.le (w := 8) (by omega)) (fun ⟨seq, c₂⟩ h₂ => ?_)
  have h₂ : c₂ = c₁.advance 8 := h₂
  have hl₂ : c₂.rest.length = c₁.rest.length - 8 := by rw [h₂, Cursor.length_advance]
  refine .bind (Safe.le (w := 1) (by omega)) (fun ⟨type, c₃⟩ h₃ => ?_)
  have h₃ : c₃ = c₂.advance 1 := h₃
  have hp₃ : c.Past c₃ := by
    rw [h₃, h₂]
    exact (h₁.past.trans (c₁.past_advance 8)).trans ((c₁.advance 8).past_advance 1)
  refine .bind (Safe.sized (by decide)) (fun ⟨v, c₄⟩ h₄ => ?_)
  refine .pure ⟨⟨h₁.inside.trans hc.isInfix, h₄.inside.trans (hp₃.suffix.trans hc).isInfix⟩, hp₃.trans h₄.past⟩

theorem safe_blockEnts : ∀ (n : Nat) (c : Cursor), c.rest <:+ L →
    Safe [.corrupt] (fun p => ∀ e ∈ p.1, e.Inside L) (fun m => blockEnts m n c)
  | 0, c, _ => by
    simp only [blockEnts]
    exact .pure (by simp)
  | n + 1, c, hc => by
    simp only [blockEnts]
    refine .ite (fun _ => .pure (by simp)) (fun _ => ?_)
    refine .bind (safe_blockEnt hc) (fun ⟨e, c'⟩ ⟨he, hp⟩ => ?_)
    refine .bind (safe_blockEnts n c' (hp.suffix.trans hc)) (fun ⟨es, c''⟩ hes => ?_)
    refine .pure ?_
    intro x hx
    rcases List.mem_cons.1 hx with rfl | hx
    · exact he
    · exact hes x hx

theorem inside_window (b : Buffer) (off n : Nat) : (b.window off n).bytes <:+: b.bytes :=
  (List.take_prefix n _).isInfix.trans (List.drop_suffix off b.bytes).isInfix

/-- As many entries as the block says, all of them inside it. -/
def BlockInside (raw : Buffer) (count : Nat) (es : List Ent) : Prop :=
  es.length = count ∧ ∀ e ∈ es, e.Inside raw.bytes

theorem safe_blockParse (raw : Buffer) (count : Nat) :
    Safe [.corrupt] (BlockInside raw count) (fun m => blockParse m raw count) := by
  refine .bind (safe_blockEnts (L := (raw.window 0 (raw.size - TRAIL)).bytes) count _ List.suffix_rfl)
    (fun ⟨es, c⟩ hes => ?_)
  refine .ite (fun h => .pure ⟨h.1, fun e he => ?_⟩) (fun _ => .stop (by simp))
  have hin := inside_window raw 0 (raw.size - TRAIL)
  exact ⟨(hes e he).1.trans hin, (hes e he).2.trans hin⟩

def IdxEntry.Inside (L : List Byte) (ioff : Nat) (e : IdxEntry) : Prop :=
  e.last <:+: L ∧ FHDR ≤ e.off ∧ e.off + e.size ≤ ioff

theorem safe_idxEntry {ioff : Nat} (hc : c.rest <:+ L) :
    Safe [.corrupt] (fun p => p.1.Inside L ioff ∧ c.Past p.2 ∧ p.2.rest.length < c.rest.length)
      (fun m => idxEntry m ioff c) := by
  refine .bind (Safe.sized (by decide)) (fun ⟨last, c₁⟩ h₁ => ?_)
  have hleft : 20 ≤ c₁.rest.length := h₁.left
  have hshort : c₁.rest.length < c.rest.length := h₁.shorter
  refine .bind (Safe.le (w := 8) (by omega)) (fun ⟨seq, c₂⟩ h₂ => ?_)
  have h₂ : c₂ = c₁.advance 8 := h₂
  have hl₂ : c₂.rest.length = c₁.rest.length - 8 := by rw [h₂, Cursor.length_advance]
  refine .bind (Safe.le (w := 8) (by omega)) (fun ⟨off, c₃⟩ h₃ => ?_)
  have h₃ : c₃ = c₂.advance 8 := h₃
  have hl₃ : c₃.rest.length = c₂.rest.length - 8 := by rw [h₃, Cursor.length_advance]
  refine .bind (Safe.le (w := 4) (by omega)) (fun ⟨size, c₄⟩ h₄ => ?_)
  have h₄ : c₄ = c₃.advance 4 := h₄
  have hl₄ : c₄.rest.length = c₃.rest.length - 4 := by rw [h₄, Cursor.length_advance]
  have hp : c.Past c₄ := by
    rw [h₄, h₃, h₂]
    exact ((h₁.past.trans (Cursor.past_advance ..)).trans (Cursor.past_advance ..)).trans (Cursor.past_advance ..)
  refine .ite (fun _ => .stop (by simp)) (fun hoff => ?_)
  refine .bind Safe.ranges (fun _ hin => ?_)
  refine .pure ⟨⟨h₁.inside.trans hc.isInfix, by show FHDR ≤ off; omega, hin _ (by simp)⟩, hp, ?_⟩
  show c₄.rest.length < c.rest.length
  omega

/-- The checks of a file's first bytes and last. -/
def damaged : List Status := [.corrupt, .format]

theorem Safe.damaged {P : α → Prop} {d : Sums → Decoder α} (h : Safe [.corrupt] P d) : Safe Raw.damaged P d :=
  h.mono (by simp [Raw.damaged]) (fun _ hp => hp)

theorem safe_checkBlock (b : Buffer) : Safe damaged (fun _ => TRAIL ≤ b.size) (fun _ => checkBlock b) := by
  refine .ite (fun _ => .stop (by simp [damaged])) (fun h => ?_)
  exact .ite (fun _ => .pure (by omega)) (fun _ => .stop (by simp [damaged]))

theorem safe_fhdrCheck (identity : List Byte) (kind num : Nat) (p : Buffer) :
    Safe damaged (fun _ => True) (fun _ => fhdrCheck identity kind num p) := by
  have hc : Status.corrupt ∈ damaged := by simp [damaged]
  have hf : Status.format ∈ damaged := by simp [damaged]
  refine .ite (fun _ => .stop hc) (fun _ => ?_)
  refine .ite (fun _ => .stop hf) (fun _ => ?_)
  refine .ite (fun _ => .stop hf) (fun _ => ?_)
  refine .ite (fun _ => .stop hc) (fun _ => ?_)
  exact .ite (fun _ => .stop hc) (fun _ => .pure trivial)

/-- The index of a file that opens: its keys are the file's bytes, its blocks before the index. -/
def IndexInside (f : Buffer) (x : FileIndex) : Prop :=
  x.bloom <:+: f.bytes ∧ ∃ ioff ≤ f.size, ∀ e ∈ x.index, e.Inside f.bytes ioff

theorem safe_fileOpen (identity : List Byte) (num : Nat) (f : Buffer) :
    Safe damaged (IndexInside f) (fun m => fileOpen m identity num f) := by
  have hc : Status.corrupt ∈ damaged := by simp [damaged]
  refine .ite (fun _ => .stop hc) (fun _ => ?_)
  refine .bind (safe_fhdrCheck ..) (fun _ _ => ?_)
  refine .ite (fun _ => .stop hc) (fun _ => ?_)
  refine .bind Safe.ranges.damaged (fun _ hr => ?_)
  refine .bind (safe_checkBlock _) (fun _ _ => ?_)
  refine .bind (safe_checkBlock _) (fun _ _ => ?_)
  refine .bind (Safe.damaged (Safe.whileLeft (fun c hc => safe_idxEntry hc) _ _ List.suffix_rfl le_rfl))
    (fun index hi => ?_)
  refine .ite (fun _ => .stop hc) (fun _ => .pure ⟨inside_window ..,
    (f.window (f.size - FOOTER) FOOTER).get 0 8, ?_, fun e he => ?_⟩)
  · have h := hr _ (List.mem_cons_self ..)
    omega
  · have h := hi e he
    have hin := inside_window f ((f.window (f.size - FOOTER) FOOTER).get 0 8)
      ((f.window (f.size - FOOTER) FOOTER).get 8 4)
    exact ⟨h.1.trans ((inside_window ..).trans hin), h.2⟩

/-! ## The manifest -/

def FileRec.Inside (L : List Byte) (r : FileRec) : Prop := r.smallest <:+: L ∧ r.largest <:+: L

theorem safe_getPair : Safe [.corrupt] (fun p => c.Past p.2) (fun m => getPair m c) := by
  refine .bind Safe.getU64 (fun ⟨a, c₁⟩ h₁ => ?_)
  refine .bind Safe.getU64 (fun ⟨b, c₂⟩ h₂ => ?_)
  exact .pure (h₁.1.trans h₂.1)

theorem safe_counted {L : List Byte} {A : α → Prop} {body : Sums → Cursor → Decoder (α × Cursor)}
    (hb : ∀ c : Cursor, c.rest <:+ L → Safe [.corrupt] (fun p => A p.1 ∧ c.Past p.2) (fun m => body m c))
    (hc : c.rest <:+ L) :
    Safe [.corrupt] (fun p => (∀ a ∈ p.1, A a) ∧ c.Past p.2) (fun m => counted m (body m) c) := by
  refine .bind Safe.getU64 (fun ⟨n, c₁⟩ h₁ => ?_)
  refine .ite (fun _ => .stop (by simp)) (fun _ => ?_)
  refine (Safe.times hb n c₁ (h₁.1.suffix.trans hc)).mono (fun _ h => h) (fun p hp => ?_)
  exact ⟨hp.1, h₁.1.trans hp.2⟩

theorem safe_fileRec {L : List Byte} (c : Cursor) (hc : c.rest <:+ L) :
    Safe [.corrupt] (fun p => p.1.Inside L ∧ c.Past p.2) (fun m => fileRec m c) := by
  refine .bind Safe.getU64 (fun ⟨num, c₁⟩ h₁ => ?_)
  refine .bind Safe.getU64 (fun ⟨size, c₂⟩ h₂ => ?_)
  refine .bind Safe.getU64 (fun ⟨entries, c₃⟩ h₃ => ?_)
  refine .bind (Safe.sized (by decide)) (fun ⟨smallest, c₄⟩ h₄ => ?_)
  refine .bind Safe.getU64 (fun ⟨smallSeq, c₅⟩ h₅ => ?_)
  refine .bind (Safe.sized (by decide)) (fun ⟨largest, c₆⟩ h₆ => ?_)
  refine .bind Safe.getU64 (fun ⟨largeSeq, c₇⟩ h₇ => ?_)
  refine .bind Safe.getU64 (fun ⟨seqOver, c₈⟩ h₈ => ?_)
  refine .bind Safe.getU64 (fun ⟨ownBlob, c₉⟩ h₉ => ?_)
  have hp₃ : c.Past c₃ := (h₁.1.trans h₂.1).trans h₃.1
  have hp₅ : c.Past c₅ := (hp₃.trans h₄.past).trans h₅.1
  have hp₉ : c.Past c₉ := (((hp₅.trans h₆.past).trans h₇.1).trans h₈.1).trans h₉.1
  refine .bind (safe_counted (A := fun _ => True) (fun c _ => ?_) (hp₉.suffix.trans hc)) (fun ⟨blobs, c₁₀⟩ h₁₀ => ?_)
  · exact safe_getPair.mono (fun _ h => h) (fun _ h => ⟨trivial, h⟩)
  · refine .pure ⟨⟨?_, ?_⟩, hp₉.trans h₁₀.2⟩
    · exact h₄.inside.trans (hp₃.suffix.trans hc).isInfix
    · exact h₆.inside.trans (hp₅.suffix.trans hc).isInfix

theorem mem_addSorted {f g : FileRec} : ∀ {l : List FileRec}, g ∈ addSorted f l → g = f ∨ g ∈ l
  | [], h => by simpa [addSorted] using h
  | x :: l, h => by
    rw [addSorted] at h
    split_ifs at h
    · simpa using h
    · rcases List.mem_cons.1 h with rfl | h
      · exact .inr (List.mem_cons_self ..)
      · exact (mem_addSorted h).imp id (List.mem_cons_of_mem x)

theorem mem_versionAdd {n : Nat} {g : FileRec} : ∀ {l fs : List FileRec}, g ∈ l.foldl (versionAdd n) fs → g ∈ fs ∨ g ∈ l
  | [], _, h => .inl h
  | x :: l, fs, h => by
    have h : g ∈ l.foldl (versionAdd n) (versionAdd n fs x) := h
    rcases mem_versionAdd h with h | h
    · rw [versionAdd] at h
      split_ifs at h
      · rcases List.mem_append.1 h with h | h
        · exact .inl h
        · rw [List.mem_singleton.1 h]
          exact .inr (List.mem_cons_self ..)
      · rcases mem_addSorted h with rfl | h
        · exact .inr (List.mem_cons_self ..)
        · exact .inl h
    · exact .inr (List.mem_cons_of_mem x h)

/-- Every file's bounds are the manifest's bytes. -/
def ManifestInside (p : Buffer) (x : Manifest) : Prop := ∀ l ∈ x.files, ∀ r ∈ l, r.Inside p.bytes

theorem safe_headerRead (p : Buffer) : Safe damaged (fun _ => True) (fun _ => headerRead p) := by
  have hc : Status.corrupt ∈ damaged := by simp [damaged]
  have hf : Status.format ∈ damaged := by simp [damaged]
  refine .ite (fun _ => .stop hf) (fun _ => ?_)
  refine .ite (fun _ => .stop hc) (fun _ => ?_)
  refine .ite (fun _ => .stop hf) (fun _ => ?_)
  exact .ite (fun _ => .stop hc) (fun _ => .pure trivial)

theorem safe_manifestBody {L : List Byte} (hc : c.rest <:+ L) :
    Safe [.corrupt] (fun p => ∀ l ∈ p.1.levels, ∀ r ∈ l, r.Inside L) (fun m => manifestBody m c) := by
  refine .bind Safe.getU64 (fun ⟨nextFile, c₁⟩ h₁ => ?_)
  refine .bind Safe.getU64 (fun ⟨logFirst, c₂⟩ h₂ => ?_)
  refine .bind Safe.getU64 (fun ⟨lastSeq, c₃⟩ h₃ => ?_)
  have h₃ : c₃.rest <:+ L := ((h₁.1.trans h₂.1).trans h₃.1).suffix.trans hc
  refine .bind (Safe.times (A := fun l => ∀ r ∈ l, r.Inside L)
    (fun c hc => safe_counted (fun c hc => safe_fileRec c hc) hc) LEVELS c₃ h₃) (fun ⟨levels, c₄⟩ h₄ => ?_)
  refine .bind (safe_counted (A := fun _ => True) (fun c _ => ?_) (h₄.2.suffix.trans h₃)) (fun ⟨dead, c₅⟩ _ => ?_)
  · exact safe_getPair.mono (fun _ h => h) (fun _ h => ⟨trivial, h⟩)
  · exact .pure h₄.1

theorem safe_manifestRead (p : Buffer) : Safe damaged (ManifestInside p) (fun m => manifestRead m p) := by
  have hc : Status.corrupt ∈ damaged := by simp [damaged]
  have hf : Status.format ∈ damaged := by simp [damaged]
  have hin := inside_window p 0 (p.size - 4)
  refine .ite (fun _ => .stop hc) (fun _ => ?_)
  refine .bind (safe_headerRead p) (fun h _ => ?_)
  refine .ite (fun _ => .stop hf) (fun _ => ?_)
  refine .bind (Safe.damaged (safe_manifestBody (L := (p.window 0 (p.size - 4)).bytes) (List.drop_suffix ..)))
    (fun ⟨b, c'⟩ hb => ?_)
  refine .ite (fun _ => .pure ?_) (fun _ => .stop hc)
  intro l hl r hr
  obtain ⟨i, hi, rfl⟩ := List.mem_mapIdx.1 hl
  rcases mem_versionAdd hr with hr | hr
  · cases hr
  · have h := hb _ (List.getElem_mem hi) r hr
    exact ⟨h.1.trans hin, h.2.trans hin⟩

end Raw
end Gbasic
