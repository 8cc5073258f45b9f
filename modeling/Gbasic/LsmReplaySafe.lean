import Gbasic.LsmDecodeSafe
/-!
# LsmReplaySafe — a log's replay, and the decoders together

A turn of the replay with the machine's sums is the turn with exact ones but where that meets a sum that wraps: a length
in an entry, which takes it beyond the record, or the record's own, which leaves it where it was.  The replay stays
there for ever if the record chains to its own checksum.
-/
namespace Gbasic
namespace Raw

open Lsm (Status TRAIL LOG_PRE U64)

variable {L : List Byte} {c : Cursor}

/-! ## A record's entries -/

def LogEnt.Inside (L : List Byte) (e : LogEnt) : Prop := e.k <:+: L ∧ e.v <:+: L

theorem safe_logEnt (hc : c.rest <:+ L) :
    Safe [.corrupt] (fun p => p.1.Inside L ∧ c.Past p.2) (fun m => logEnt m c) := by
  simp only [logEnt, fits_few _ (show 1 ≤ 2 ^ 32 by decide)]
  by_cases h : 1 ≤ c.rest.length
  · simp only [if_pos h]
    refine .bind (Safe.pure (P := fun _ => True) trivial) (fun _ _ => ?_)
    refine .bind (Safe.le h) (fun ⟨type, c₁⟩ h₁ => ?_)
    have hp₁ : c.Past c₁ := by
      rw [show c₁ = c.advance 1 from h₁]
      exact c.past_advance 1
    refine .bind (Safe.sized (by decide)) (fun ⟨k, c₂⟩ h₂ => ?_)
    refine .bind (Safe.sized (by decide)) (fun ⟨v, c₃⟩ h₃ => ?_)
    have hp₂ : c.Past c₂ := hp₁.trans h₂.past
    refine .pure ⟨⟨?_, ?_⟩, hp₂.trans h₃.past⟩
    · exact h₂.inside.trans (hp₁.suffix.trans hc).isInfix
    · exact h₃.inside.trans (hp₂.suffix.trans hc).isInfix
  · simp only [if_neg h]
    exact .stop (by simp)

structure SafeEnts (L : List Byte) (c : Cursor) (r : Sums → List LogEnt × Decoder Cursor) : Prop where
  same : (r .machine).1 = (r .exact).1
  safe : Safe [.corrupt] (fun c' => c.Past c') (fun m => (r m).2)
  inside : ∀ e ∈ (r .exact).1, e.Inside L

theorem safe_logEnts : ∀ (n : Nat) (c : Cursor), c.rest <:+ L → SafeEnts L c (fun m => logEnts m n c)
  | 0, c, _ => ⟨rfl, .pure (.refl c), fun e he => by cases he⟩
  | n + 1, c, hc => by
    have h := safe_logEnt hc
    have hj := h.judged
    rcases h.answers with (⟨⟨e, c'⟩, he, hin, hp⟩ | ⟨s, hs, he⟩) | he
    · rw [he] at hj
      have ih := safe_logEnts n c' (hp.suffix.trans hc)
      have hm : ∀ m : Sums, logEnts m (n + 1) c = (e :: (logEnts m n c').1, (logEnts m n c').2) := by
        intro m
        cases m with
        | machine => simp only [logEnts, hj, judge_ok]
        | exact => simp only [logEnts, he]
      simp only [hm]
      refine ⟨?_, ih.safe.mono (fun _ h => h) (fun _ h => hp.trans h), ?_⟩
      · simpa using ih.same
      · intro x hx
        rcases List.mem_cons.1 hx with rfl | hx
        · exact hin
        · exact ih.inside x hx
    · rw [he] at hj
      have hm : ∀ m : Sums, logEnts m (n + 1) c = ([], .error (.rc s)) := by
        intro m
        cases m with
        | machine => simp only [logEnts, hj, judge_rc]
        | exact => simp only [logEnts, he]
      simp only [hm]
      exact ⟨rfl, .stop hs, fun e he => by cases he⟩
    · rw [he] at hj
      have h₁ : logEnts .machine (n + 1) c = ([], .error .outside) := by simp only [logEnts, hj, judge_long]
      have h₂ : logEnts .exact (n + 1) c = ([], .error .long) := by simp only [logEnts, he]
      refine ⟨by simp only [h₁, h₂], ⟨by simp only [h₁, h₂]; rfl, .inr (by simp only [h₂])⟩, ?_⟩
      simp only [h₂]
      exact fun e he => by cases he

/-! ## A record -/

def chainAt (f : Buffer) (off : Nat) : Nat :=
  ((f.window (off + 8) (f.get off 4)).window (LOG_PRE - 8) (f.get off 4 - (LOG_PRE - 8))).get 12 4

theorem findRecord_chain (m : Sums) (f : Buffer) (off prev : Nat) :
    findRecord m f off prev = .nothing ∨ chainAt f off = prev := by
  by_cases hc : chainAt f off = prev
  · exact .inr hc
  · left
    rw [findRecord]
    split_ifs with h₁
    · rfl
    · dsimp only
      by_cases h₂ : f.get off 4 < LOG_PRE - 8 + 24 ∨ f.size < off + 8 + f.get off 4
      · rw [if_pos h₂]
      · rw [if_neg h₂, if_pos (.inr hc)]

def Agrees (f : Buffer) (off prev : Nat) : Found → Found → Prop
  | x, .lost s => s = .long ∧ (x = .lost .outside ∨
      ∃ base count es ids rlen, x = .whole base count es ids rlen prev ∧ (8 + rlen) % 2 ^ 32 = 0)
  | x, .whole base count es ids rlen crc => x = .whole base count es ids rlen crc ∧ off + 8 ≤ f.size ∧
      ¬ ((8 + rlen) % 2 ^ 32 = 0 ∧ crc = prev) ∧ ∀ e ∈ es, e.Inside f.bytes
  | x, .part base es => x = .part base es ∧ ∀ e ∈ es, e.Inside f.bytes
  | x, y => x = y

theorem findRecord_agrees (f : Buffer) (off prev : Nat) :
    Agrees f off prev (findRecord .machine f off prev) (findRecord .exact f off prev) := by
  rw [findRecord, findRecord]
  by_cases h₁ : f.size < off + 8
  · rw [if_pos h₁, if_pos h₁]
    rfl
  rw [if_neg h₁, if_neg h₁]
  generalize hrl : f.get off 4 = rlen
  generalize hcr : f.get (off + 4) 4 = crc
  dsimp only
  by_cases h₂ : rlen < LOG_PRE - 8 + 24 ∨ f.size < off + 8 + rlen
  · rw [if_pos h₂, if_pos h₂]
    rfl
  rw [if_neg h₂, if_neg h₂]
  have hrf := inside_window f (off + 8) rlen
  have hpf := (inside_window (f.window (off + 8) rlen) (LOG_PRE - 8) (rlen - (LOG_PRE - 8))).trans hrf
  generalize f.window (off + 8) rlen = r at hrf hpf ⊢
  generalize r.window (LOG_PRE - 8) (rlen - (LOG_PRE - 8)) = p at hpf ⊢
  by_cases h₃ : crc32c r.bytes ≠ crc ∨ p.get 12 4 ≠ prev
  · rw [if_pos h₃, if_pos h₃]
    rfl
  rw [if_neg h₃, if_neg h₃]
  by_cases h₄ : r.get 0 1 ≠ 0 ∨ r.get 4 4 ≠ 0
  · rw [if_pos h₄, if_pos h₄]
    rfl
  rw [if_neg h₄, if_neg h₄]
  have hs := safe_logEnts (L := p.bytes) (p.get 8 4) (p.cursor.advance 20) (List.drop_suffix ..)
  have hj : (logEnts .machine (p.get 8 4) (p.cursor.advance 20)).2 =
    judge (logEnts .exact (p.get 8 4) (p.cursor.advance 20)).2 := hs.safe.judged
  have ha := hs.safe.answers
  have hsame : (logEnts .machine (p.get 8 4) (p.cursor.advance 20)).1 =
    (logEnts .exact (p.get 8 4) (p.cursor.advance 20)).1 := hs.same
  have hin : ∀ e ∈ (logEnts .exact (p.get 8 4) (p.cursor.advance 20)).1, e.Inside f.bytes :=
    fun e he => ⟨(hs.inside e he).1.trans hpf, (hs.inside e he).2.trans hpf⟩
  clear hs
  rcases hm : logEnts .machine (p.get 8 4) (p.cursor.advance 20) with ⟨es, x⟩
  rcases he : logEnts .exact (p.get 8 4) (p.cursor.advance 20) with ⟨es', y⟩
  rw [hm, he] at hj hsame
  rw [he] at hin
  simp only [he] at ha
  have hsame : es = es' := hsame
  subst hsame
  have hj : x = judge y := hj
  subst hj
  rcases ha with (⟨c', rfl, -⟩ | ⟨s, -, rfl⟩) | rfl
  · simp only [judge_ok]
    by_cases h₅ : c'.rest.length < 4 ∨ 8 * leNat (c'.rest.take 4) ≠ (c'.rest.drop 4).length
    · rw [if_pos h₅, if_pos h₅]
      exact ⟨rfl, hin⟩
    rw [if_neg h₅, if_neg h₅, if_neg (by simp [Sums.again])]
    by_cases h₆ : (8 + rlen) % 2 ^ 32 = 0 ∧ crc = prev
    · rw [if_pos (by simpa [Sums.again] using h₆), h₆.2]
      exact ⟨rfl, .inr ⟨_, _, _, _, _, rfl, h₆.1⟩⟩
    · rw [if_neg (by simpa [Sums.again] using h₆)]
      exact ⟨rfl, by omega, h₆, hin⟩
  · exact ⟨rfl, hin⟩
  · exact ⟨rfl, .inl rfl⟩

/-! ## A replay -/

/-- What is replayed is the log's bytes. -/
def ReplayInside (f : Buffer) (s : Replay) (r : Replay × Status) : Prop :=
  (r.2 = .ok ∨ r.2 = .format) ∧ ∀ e ∈ r.1.ins, e ∈ s.ins ∨ e.Inside f.bytes

theorem mem_insert {f : Buffer} {s : Replay} {base : Nat} {es : List LogEnt} (h : ∀ e ∈ es, e.Inside f.bytes) :
    ∀ e ∈ (s.insert base es).ins, e ∈ s.ins ∨ e.Inside f.bytes := by
  intro e he
  rcases List.mem_append.1 he with he | he
  · exact .inl he
  · obtain ⟨i, hi, rfl⟩ := List.mem_mapIdx.1 he
    exact .inr (h _ (List.getElem_mem hi))

/-- A replay with exact sums ends: a record takes it on, or the next does not follow. -/
theorem replayLog_ends (f : Buffer) : ∀ (k : Nat) (s : Replay), f.size - s.off ≤ k →
    ∃ n, replayLog .exact f n s ≠ .error .endless := by
  intro k
  induction k with
  | zero =>
    intro s hs
    refine ⟨1, ?_⟩
    have ha := findRecord_agrees f s.off s.prev
    rw [replayLog]
    cases he : findRecord .exact f s.off s.prev with
    | whole base count es ids rlen crc =>
      rw [he] at ha
      have := ha.2.1
      omega
    | lost stop =>
      rw [he] at ha
      simp [ha.1]
    | _ => exact fun h => by cases h
  | succ k ih =>
    intro s hs
    have ha := findRecord_agrees f s.off s.prev
    cases he : findRecord .exact f s.off s.prev with
    | whole base count es ids rlen crc =>
      rw [he] at ha
      obtain ⟨-, hoff, hagain, -⟩ := ha
      by_cases hz : (8 + rlen) % 2 ^ 32 = 0
      · -- the same offset, and the record there chains to another value
        have hne : crc ≠ s.prev := fun h => hagain ⟨hz, h⟩
        have hch : chainAt f s.off = s.prev := (findRecord_chain .exact f s.off s.prev).resolve_left (by simp [he])
        have hno : findRecord .exact f s.off crc = .nothing :=
          (findRecord_chain .exact f s.off crc).resolve_right (fun h => hne (h.symm.trans hch))
        refine ⟨2, ?_⟩
        rw [replayLog, he]
        show replayLog .exact f 1 _ ≠ _
        rw [replayLog]
        have hoff' : ∀ commit, ((s.insert base es).past commit ids rlen crc).off = s.off := fun _ => by
          show s.off + (8 + rlen) % 2 ^ 32 = s.off
          omega
        simp only [hoff', show ∀ commit, ((s.insert base es).past commit ids rlen crc).prev = crc from fun _ => rfl,
          hno]
        exact fun h => by cases h
      · obtain ⟨n, hn⟩ := ih ((s.insert base es).past
          (if count = 0 then base else (base + count - 1) % U64) ids rlen crc) (by
            show f.size - (s.off + (8 + rlen) % 2 ^ 32) ≤ k
            omega)
        refine ⟨n + 1, ?_⟩
        rw [replayLog, he]
        exact hn
    | lost stop =>
      rw [he] at ha
      refine ⟨1, ?_⟩
      rw [replayLog, he]
      simp [ha.1]
    | _ =>
      refine ⟨1, ?_⟩
      rw [replayLog, he]
      exact fun h => by cases h

theorem replayLog_again {f : Buffer} {off prev base count rlen : Nat} {es : List LogEnt} {ids : List Nat}
    (h : findRecord .machine f off prev = .whole base count es ids rlen prev) (hz : (8 + rlen) % 2 ^ 32 = 0) :
    ∀ (n : Nat) (s : Replay), s.off = off → s.prev = prev → replayLog .machine f n s = .error .endless
  | 0, _, _, _ => rfl
  | n + 1, s, ho, hp => by
    rw [replayLog, ho, hp, h]
    refine replayLog_again h hz n _ ?_ rfl
    show s.off + (8 + rlen) % 2 ^ 32 = off
    omega

theorem replayLog_machine (f : Buffer) : ∀ (n : Nat) (s : Replay) (r : Replay × Status),
    replayLog .exact f n s = .ok r → replayLog .machine f n s = .ok r ∧ ReplayInside f s r
  | 0, _, _, h => by cases h
  | n + 1, s, r, h => by
    have ha := findRecord_agrees f s.off s.prev
    rw [replayLog] at h ⊢
    cases he : findRecord .exact f s.off s.prev with
    | nothing =>
      rw [he] at ha h
      rw [show findRecord .machine f s.off s.prev = .nothing from ha]
      cases h
      exact ⟨rfl, .inl rfl, fun e he => .inl he⟩
    | refused =>
      rw [he] at ha h
      rw [show findRecord .machine f s.off s.prev = .refused from ha]
      cases h
      exact ⟨rfl, .inr rfl, fun e he => .inl he⟩
    | part base es =>
      rw [he] at ha h
      rw [ha.1]
      cases h
      exact ⟨rfl, .inl rfl, mem_insert ha.2⟩
    | lost stop =>
      rw [he] at h
      cases h
    | whole base count es ids rlen crc =>
      rw [he] at ha h
      obtain ⟨hm, -, -, hin⟩ := ha
      rw [hm]
      have ih := replayLog_machine f n _ r h
      refine ⟨ih.1, ih.2.1, fun e he => ?_⟩
      rcases ih.2.2 e he with he | he
      · exact mem_insert hin e he
      · exact .inr he

theorem replayLog_lost (f : Buffer) : ∀ (n : Nat) (s : Replay), replayLog .exact f n s = .error .long →
    ∀ (k : Nat) (r : Replay × Status), replayLog .machine f k s ≠ .ok r
  | 0, _, h => by cases h
  | n + 1, s, h => by
    intro k r
    have ha := findRecord_agrees f s.off s.prev
    rw [replayLog] at h
    cases he : findRecord .exact f s.off s.prev with
    | nothing | refused | part => rw [he] at h; cases h
    | lost stop =>
      rw [he] at ha
      rcases ha.2 with hm | ⟨base, count, es, ids, rlen, hm, hz⟩
      · cases k with
        | zero => exact fun h => by cases h
        | succ k =>
          rw [replayLog, hm]
          exact fun h => by cases h
      · rw [replayLog_again hm hz k s rfl rfl]
        exact fun h => by cases h
    | whole base count es ids rlen crc =>
      rw [he] at ha h
      cases k with
      | zero => exact fun h => by cases h
      | succ k =>
        rw [replayLog, ha.1]
        exact replayLog_lost f n _ h k r

theorem replayLog_error (f : Buffer) : ∀ (n : Nat) (s : Replay) (stop : Stop),
    replayLog .exact f n s = .error stop → stop = .long ∨ stop = .endless
  | 0, _, _, h => by cases h; exact .inr rfl
  | n + 1, s, stop, h => by
    have ha := findRecord_agrees f s.off s.prev
    rw [replayLog] at h
    cases he : findRecord .exact f s.off s.prev with
    | nothing | refused | part => rw [he] at h; cases h
    | lost stop' =>
      rw [he] at ha h
      cases h
      exact .inl ha.1
    | whole base count es ids rlen crc =>
      rw [he] at h
      exact replayLog_error f n _ stop h

theorem replayLog_answers (f : Buffer) (s : Replay) :
    (∃ n r, replayLog .machine f n s = .ok r ∧ ReplayInside f s r) ↔ ∀ n, replayLog .exact f n s ≠ .error .long := by
  constructor
  · rintro ⟨k, r, hk, -⟩ n hn
    exact replayLog_lost f n s hn k r hk
  · intro h
    obtain ⟨n, hn⟩ := replayLog_ends f _ s le_rfl
    rcases hx : replayLog .exact f n s with stop | r
    · rcases replayLog_error f n s stop hx with rfl | rfl
      · exact absurd hx (h n)
      · exact absurd hx hn
    · exact ⟨n, r, replayLog_machine f n s r hx⟩

/-! ## The decoders -/

/-- **The decoders come to an answer that has everything inside the bytes they were given just where, read with exact
sums, those bytes hold no length, offset or size whose sum wraps to one within the limit it is tested against, and a
log no record of `2^32 - 8` bytes that chains to its own checksum.** -/
theorem decoders_inside (raw f p log : Buffer) (count num : Nat) (identity : List Byte) (s : Replay) :
    (Answers [.corrupt] (BlockInside raw count) (blockParse .machine raw count) ↔
      blockParse .exact raw count ≠ .error .long) ∧
    (Answers damaged (IndexInside f) (fileOpen .machine identity num f) ↔
      fileOpen .exact identity num f ≠ .error .long) ∧
    (Answers damaged (ManifestInside p) (manifestRead .machine p) ↔ manifestRead .exact p ≠ .error .long) ∧
    ((∃ n r, replayLog .machine log n s = .ok r ∧ ReplayInside log s r) ↔
      ∀ n, replayLog .exact log n s ≠ .error .long) :=
  ⟨(safe_blockParse raw count).iff, (safe_fileOpen identity num f).iff, (safe_manifestRead p).iff,
    replayLog_answers log s⟩

/-- A block of one entry, sealed by its checksum: the key's length is ten short of `2^64`, and its ten bytes bring the
offset back to nothing. -/
def longBlock : Buffer where
  bytes := uleb (2 ^ 64 - 10) ++ [byte 42] ++ lePut 4 1 ++ List.replicate 28 (byte 0) ++ lePut 4 1792149581
  small := by decide

/-- A block whose checksum passes is let past its end. -/
theorem longBlock_outside :
    ¬ ∀ raw count, checkBlock raw = .ok () → Answers [.corrupt] (BlockInside raw count)
    (blockParse .machine raw count) := by
  intro h
  have hc : checkBlock longBlock = .ok () := by decide +kernel
  have hp : blockParse .machine longBlock 1 = .error .outside := by decide +kernel
  rcases h longBlock 1 hc with ⟨es, he, -⟩ | ⟨s, -, he⟩ <;> rw [hp] at he <;> cases he

end Raw
end Gbasic
