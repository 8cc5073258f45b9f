import Gbasic.LsmKept
import Gbasic.LsmFailed
/-!
# LsmTold — what an operation says of a sync that failed in it

`Told` says of a function's status what `Stays` says of the store: when it leaves the store failed that was not, it
answers IO.
-/
namespace Gbasic
namespace Lsm

open Prog

/-! ## Statuses -/

def Told {α : Type} (db : Store) (p : M α) (out : α → Store) (rc : α → Status) : Prop :=
  ∀ w, wp exec (fun _ => True) p (fun a _ => (out a).failed = true → db.failed = true ∨ rc a = .io) w

namespace Told

variable {α β : Type} {db : Store}

variable {out : α → Store} {rc : α → Status} {p : M α} {f : α → M β} {out' : β → Store}

theorem pure {a : α} (h : (out a).failed = true → db.failed = true ∨ rc a = .io) :
    Told db (Pure.pure a) out rc := fun _ => h

theorem kept {rc : β → Status} (hp : Keep db p out) (hf : ∀ a, Told (out a) (f a) out' rc) :
    Told db (p >>= f) out' rc := by
  intro w
  rw [wp_bind]
  refine wp_use (hp w) (fun a w' h => wp_use (hf a w') (fun b w'' hb hfail => ?_))
  rw [← show (out a).failed = db.failed from h.failed]
  exact hb hfail

theorem bind {rc' : β → Status} (hp : Told db p out rc)
    (hbad : ∀ a, rc a ≠ .ok → ∃ b, f a = Pure.pure b ∧ out' b = out a ∧ rc' b = rc a)
    (hok : ∀ a, rc a = .ok → Told (out a) (f a) out' rc') : Told db (p >>= f) out' rc' := by
  intro w
  rw [wp_bind]
  refine wp_use (hp w) (fun a w' h => ?_)
  by_cases hr : rc a = .ok
  · refine wp_use (hok a hr w') (fun b w'' hb hfail => ?_)
    rcases hb hfail with hb | hb
    · exact Or.inl ((h hb).resolve_right (by rw [hr]; decide))
    · exact Or.inr hb
  · obtain ⟨b, hb, ho, hrc⟩ := hbad a hr
    rw [hb, wp_pure, ho, hrc]
    exact h

theorem pass {rc' : β → Status} (hp : Told db p out rc)
    (hf : ∀ a w, wp exec (fun _ => True) (f a) (fun b _ => (out' b).failed = (out a).failed ∧ rc' b = rc a) w) :
    Told db (p >>= f) out' rc' := by
  intro w
  rw [wp_bind]
  refine wp_use (hp w) (fun a w' h => wp_use (hf a w') (fun b _ hb => ?_))
  rw [hb.1, hb.2]
  exact h

theorem ite {c : Prop} [Decidable c] {q : M α} (hp : c → Told db p out rc) (hq : ¬ c → Told db q out rc) :
    Told db (if c then p else q) out rc := by
  split
  · exact hp ‹_›
  · exact hq ‹_›

end Told

theorem told_flushFile (db : Store) (n : Name) : Told db (flushFile db n) (·.1) (·.2) := by
  intro w
  simp only [flushFile, call, io, wp_bind, wp_request, wp_pure]
  refine ⟨trivial, ?_⟩
  split
  · exact fun _ => Or.inr rfl
  · exact fun h => Or.inl h

theorem told_bldSync (db : Store) (b : Builder) : Told db (bldSync db b) (·.1) (·.2) := by
  refine .ite (fun _ => .pure Or.inl) (fun _ => .ite (fun _ => ?_) (fun _ => told_flushFile _ _))
  refine .bind (told_flushFile _ _) (fun ⟨db', rc⟩ hr => ⟨_, if_pos hr, rfl, rfl⟩) (fun ⟨db', rc⟩ hr => ?_)
  exact .ite (fun h => absurd hr h) (fun _ => told_flushFile _ _)

theorem bldClose_end (db : Store) (b : Builder) (bloom : Bloom) (rc : Status) (w : World) :
    wp exec (fun _ => True) (do
      if rc = .ok ∧ b.entries ≠ 0 then
        return ({ db with refs.recs := (b.num, b.blobs.map (·.1)) :: db.refs.recs }, some (b.meta bloom), rc)
      let _ ← call (.remove (db.sstName b.num))
      if b.bnum ≠ 0 then
        let _ ← call (.remove (db.blobName b.bnum))
        return (db, none, rc)
      return (db, none, rc))
      (fun (a : Store × Option FileMeta × Status) _ => a.1.failed = db.failed ∧ a.2.2 = rc) w := by
  split
  · exact ⟨rfl, rfl⟩
  · simp only [call, io, wp_bind, wp_request, wp_pure, true_and]
    split <;> simp

theorem told_bldClose (db : Store) (b : Builder) : Told db (bldClose db b) (·.1) (·.2.2) := by
  refine .kept (keep_bldFinishBlock db b) (fun _ => .kept (keep_bldWrite _ _ _) (fun _ => ?_))
  refine .kept (keep_bldWrite _ _ _) (fun _ => .kept (keep_bldWrite _ _ _) (fun b => ?_))
  exact .pass (told_bldSync _ b) (fun ⟨db, rc⟩ w => bldClose_end db b _ rc w)

theorem told_runAdd (db : Store) (t : Txn) (b : Builder) : Told db (runAdd db t b) (·.1) (·.2.2) := by
  refine .pass (told_bldClose db b) (fun ⟨db, fm, rc⟩ w => ?_)
  cases fm <;> exact ⟨rfl, rfl⟩

theorem told_spillTurn (db : Store) (t : Txn) (cur : Option (Builder × Nat)) (tree : Nat) :
    Told db (spillTurn db t cur tree) (·.1) (·.2.2.2) := by
  unfold spillTurn
  cases cur with
  | none => exact .pure Or.inl
  | some x => exact .ite (fun _ => .pure Or.inl) (fun _ => .pass (told_runAdd db t _) (fun _ _ => ⟨rfl, rfl⟩))

theorem keep_spillOutput (db : Store) (cur : Option (Builder × Nat)) (tree : Nat) :
    Keep db (spillOutput db cur tree) (·.1) := by
  unfold spillOutput
  cases cur with
  | none => exact .bind (keep_bldOpen db) (fun _ => .same rfl)
  | some x => exact .same rfl

theorem told_spillLoop : ∀ (l : List Ent) (db : Store) (t : Txn) (cur : Option (Builder × Nat)),
    Told db (spillLoop l db t cur) (·.1) (·.2.2.2)
  | [], _, _, _ => .pure Or.inl
  | e :: l, db, t, cur => by
    refine .bind (told_spillTurn db t cur _) (fun ⟨db, t, cur, rc⟩ hr => ⟨_, if_pos hr, rfl, rfl⟩) ?_
    rintro ⟨db, t, cur, rc⟩ hr
    refine .ite (fun h => absurd hr h) (fun _ => .kept (keep_spillOutput db cur _) (fun ⟨db, b, tree⟩ => ?_))
    refine .ite (fun _ => .pure Or.inl) (fun _ => .kept (keep_bldAdd db b _) (fun ⟨db, b⟩ => ?_))
    exact .ite (fun _ => .pure Or.inl) (fun _ => told_spillLoop l db t _)

theorem spillLoop_bad : ∀ (l : List Ent) (db : Store) (t : Txn) (cur : Option (Builder × Nat)) (w : World),
    wp exec (fun _ => True) (spillLoop l db t cur)
      (fun a _ => a.2.2.2 ≠ .ok → ∀ b, a.2.2.1 = some b → b.rc ≠ .ok) w
  | [], _, _, _, _ => fun h => absurd rfl h
  | e :: l, db, t, cur, w => by
    unfold spillLoop
    rw [wp_bind]
    refine wp_any (fun ⟨db, t, cur, rc⟩ w => ?_) w
    dsimp only
    split
    · exact fun _ b hb => by cases hb
    · rw [wp_bind]
      refine wp_any (fun ⟨db, b, tree⟩ w => ?_) w
      dsimp only
      split
      · exact fun _ b hb => by cases hb
      · rw [wp_bind]
        refine wp_any (fun ⟨db, b⟩ w => ?_) w
        dsimp only
        split
        · rename_i h
          intro _ b hb
          cases hb
          exact h
        · exact spillLoop_bad l db t _ w

theorem bldWrite_bad {db : Store} {b : Builder} {p : Part} (h : b.rc ≠ .ok) (w : World) :
    wp exec (fun _ => True) (bldWrite db b p) (fun b' _ => b' = b) w := by
  unfold bldWrite
  rw [if_pos h]
  rfl

theorem bldFinishBlock_bad {db : Store} {b : Builder} (h : b.rc ≠ .ok) (w : World) :
    wp exec (fun _ => True) (bldFinishBlock db b) (fun b' _ => b'.rc ≠ .ok) w := by
  unfold bldFinishBlock
  split
  · exact h
  · rw [wp_bind]
    refine wp_use (bldWrite_bad ?_ w) (fun b' _ hb => ?_)
    · exact h
    · rw [hb]
      exact h

theorem bldClose_bad {db : Store} {b : Builder} (h : b.rc ≠ .ok) (w : World) :
    wp exec (fun _ => True) (bldClose db b) (fun a _ => a.1.failed = db.failed) w := by
  unfold bldClose
  rw [wp_bind]
  refine wp_use (bldFinishBlock_bad h w) (fun b w hb => ?_)
  simp only [wp_bind]
  refine wp_use (bldWrite_bad hb w) (fun b₁ w h₁ => wp_use (bldWrite_bad (h₁ ▸ hb) w) (fun b₂ w h₂ => ?_))
  refine wp_use (bldWrite_bad (h₂ ▸ h₁ ▸ hb) w) (fun b₃ w h₃ => ?_)
  have hb₃ : b₃.rc ≠ .ok := h₃ ▸ h₂ ▸ h₁ ▸ hb
  unfold bldSync
  rw [if_pos hb₃]
  rw [wp_pure]
  exact wp_use (bldClose_end db b₃ _ _ w) (fun _ _ h => h.1)

theorem spillLast_bad {db : Store} {t : Txn} {cur : Option Builder} {rc : Status} (hr : rc ≠ .ok)
    (hb : ∀ b, cur = some b → b.rc ≠ .ok) (w : World) :
    wp exec (fun _ => True) (spillLast db t cur rc) (fun a _ => a.1.failed = db.failed ∧ a.2.2 = rc) w := by
  unfold spillLast
  cases cur with
  | none => exact ⟨rfl, rfl⟩
  | some b =>
    dsimp only
    rw [if_neg hr, wp_bind]
    refine wp_use (bldClose_bad (hb b rfl) w) (fun ⟨db', fm, _⟩ w h => ?_)
    rw [wp_bind]
    refine wp_use (keep_filesFree _ db' w) (fun db'' w h' => ?_)
    exact ⟨h'.failed.trans h, rfl⟩

theorem told_spillLast {db : Store} (t : Txn) (cur : Option Builder) :
    Told db (spillLast db t cur .ok) (·.1) (·.2.2) := by
  unfold spillLast
  cases cur with
  | none => exact .pure Or.inl
  | some b => exact told_runAdd db t b

theorem told_spillBuffer (db : Store) (t : Txn) : Told db (spillBuffer db t) (·.1) (·.2.2) := by
  refine .ite (fun _ => .pure Or.inl) (fun _ w => ?_)
  rw [wp_bind]
  refine wp_use (wp_and _ w (told_spillLoop _ db t none w) (spillLoop_bad _ db t none w)) ?_
  rintro ⟨db', t', cur, rc⟩ w ⟨htold, hbad⟩
  dsimp only at htold hbad ⊢
  rw [wp_bind]
  by_cases hr : rc = .ok
  · subst hr
    refine wp_use (told_spillLast t' cur w) (fun ⟨db'', t'', rc⟩ w h => ?_)
    have h' : db''.failed = true → db.failed = true ∨ rc = .io := by
      intro hf
      rcases h hf with hf' | hio
      · exact Or.inl ((htold hf').resolve_right (by simp))
      · exact Or.inr hio
    by_cases hr : rc = .ok
    · subst hr
      exact fun hf => Or.inl ((h' hf).resolve_right (by simp))
    · dsimp only
      rw [if_pos hr]
      exact h'
  · refine wp_use (spillLast_bad hr (hbad hr) w) (fun ⟨db'', t'', rc'⟩ w h => ?_)
    obtain ⟨hf, rfl⟩ : db''.failed = db'.failed ∧ rc' = rc := h
    dsimp only
    rw [if_pos hr]
    exact fun hfail => htold (hf ▸ hfail)

theorem told_maybeSpill (db : Store) (t : Txn) : Told db (maybeSpill db t) (·.1) (·.2.2) := by
  refine .ite (fun _ => .pure Or.inl) (fun _ => .pass (told_spillBuffer db t) (fun ⟨db, t, rc⟩ w => ?_))
  by_cases hr : rc = .ok
  · subst hr
    exact ⟨rfl, rfl⟩
  · dsimp only
    rw [if_pos hr]
    exact ⟨rfl, rfl⟩

theorem keep_reads (db : Store) : Keep db (reads db) (fun _ => db) := .bind (.io rfl) (fun _ => .same rfl)

theorem told_txnSet (rd : Rd) (db : Store) (t : Txn) (i : Nat) (key : Bytes) (v : EVal) :
    Told db (txnSet rd db t i key v) (·.1) (·.2.2) := by
  unfold txnSet
  split
  · exact told_maybeSpill db _
  · exact .pure Or.inl

theorem told_put (db : Store) (t : Txn) (tree key value : Bytes) (fl : PutFlags) :
    Told db (put db t tree key value fl) (·.1) (·.2.2) := by
  refine .ite (fun _ => .pure Or.inl) (fun _ => .ite (fun _ => .pure Or.inl)
    (fun _ => .kept (keep_reads db) (fun rd => ?_)))
  refine .ite (fun _ => .pure Or.inl) (fun _ => .ite (fun _ => .pure Or.inl) (fun _ => ?_))
  exact .ite (fun _ => .pure Or.inl) (fun _ => told_txnSet rd db _ _ _ _)

theorem told_del (db : Store) (t : Txn) (tree key : Bytes) : Told db (del db t tree key) (·.1) (·.2.2) := by
  refine .ite (fun _ => .pure Or.inl) (fun _ => .ite (fun _ => .pure Or.inl)
    (fun _ => .kept (keep_reads db) (fun rd => ?_)))
  refine .ite (fun _ => .pure Or.inl) (fun _ => .ite (fun _ => .pure Or.inl) (fun _ => ?_))
  exact .ite (fun _ => .pure Or.inl) (fun _ => told_txnSet rd db _ _ _ _)

theorem told_rollbackSavepoint (db : Store) (t : Txn) : Told db (rollbackSavepoint db t) (·.1) (·.2.2) := by
  unfold rollbackSavepoint
  refine .ite (fun _ => .pure Or.inl) (fun _ => ?_)
  cases t.marks with
  | nil => exact .pure Or.inl
  | cons m l =>
    exact .ite (fun _ => .pure Or.inl) (fun _ => .ite (fun _ => .pure Or.inl) (fun _ => told_maybeSpill db _))

/-! ## Commits -/

theorem keep_zeroFill (db : Store) (n : Name) : ∀ f off stop, Keep db (zeroFill n f off stop) (fun _ => db)
  | 0, _, _ => .same rfl
  | f + 1, _, _ => by
    refine .ite (.same rfl) (.bind (.call rfl) (fun _ => .ite (.same rfl) ?_))
    exact keep_zeroFill db n f _ _

theorem told_logRoom (db : Store) (need : Nat) : Told db (logRoom db need) (·.1) (·.2) := by
  refine .ite (fun _ => .pure Or.inl) (fun _ => .kept (keep_zeroFill db _ _ _ _) (fun _ => ?_))
  exact .ite (fun _ => .pure Or.inl) (fun _ => .pure Or.inl)

theorem told_commitWrite (db : Store) (r : LogRec) (sync : Bool) : Told db (commitWrite db r sync) (·.1) (·.2) := by
  refine .bind (told_logRoom db _) (fun ⟨db, rc⟩ hr => ⟨_, if_pos hr, rfl, rfl⟩) (fun ⟨db, rc⟩ hr => ?_)
  refine .ite (fun h => absurd hr h) (fun _ => .kept (.call rfl) (fun _ => .ite (fun _ => .pure Or.inl) (fun _ => ?_)))
  exact .ite (fun _ => told_flushFile _ _) (fun _ => .pure Or.inl)

theorem slice_io {db : Store} {rc : Status} {p : M (Store × Status)} {w : World} (hp : db.failed = false →
      wp exec (fun _ => True) p (fun a _ => a.1.failed = true → a.2 = .io) w) :
    wp exec (fun _ => True) (if ioOrFailed db rc then pure (db, .io) else p)
      (fun a _ => a.1.failed = true → a.2 = .io) w := by
  by_cases h : ioOrFailed db rc = true
  · rw [if_pos h]
    exact fun _ => rfl
  · rw [if_neg h]
    refine hp ?_
    simp only [ioOrFailed, Bool.or_eq_true, not_or, Bool.not_eq_true] at h
    exact h.2

theorem commitWork_io (db : Store) (wrote : Nat) (w : World) :
    wp exec (fun _ => True) (commitWork db wrote) (fun a _ => a.1.failed = true → a.2 = .io) w := by
  unfold commitWork
  rw [wp_bind]
  refine wp_any (fun ⟨db, rc⟩ w => slice_io (fun _ => ?_)) w
  rw [wp_bind]
  refine wp_any (fun ⟨db, rc⟩ w => slice_io (fun _ => ?_)) w
  rw [wp_bind]
  refine wp_any (fun ⟨db, rc⟩ w => slice_io (fun _ => ?_)) w
  rw [wp_bind]
  refine wp_any (fun ⟨db, rc⟩ w => slice_io (fun h hf => ?_)) w
  exact absurd (h.symm.trans hf) (by decide)

theorem told_commitRecord (db : Store) (t : Txn) (sync : Bool) :
    Told db (commitRecord db t sync) (·.1) (·.2) := by
  intro w
  unfold commitRecord
  rw [wp_bind]
  refine wp_use (told_commitWrite db _ sync w) (fun ⟨db', rc⟩ w h => ?_)
  dsimp only at h ⊢
  by_cases hr : rc = .ok
  · rw [if_neg (not_not.2 hr), wp_bind]
    refine wp_any (fun db'' w => wp_use (commitWork_io db'' _ w) (fun a _ ha hf => Or.inr (ha hf))) w
  · rw [if_pos hr, wp_bind]
    refine wp_use (keep_abort db' t w) (fun db'' w h' hf => ?_)
    have hf' : db'.failed = true := h'.failed ▸ hf
    refine (h hf').imp_right (fun hio => ?_)
    subst hio
    rfl

theorem fullOrIo_cases (rc : Status) : fullOrIo rc = .io ∨ fullOrIo rc = .full := by
  unfold fullOrIo
  split
  · exact Or.inr rfl
  · exact Or.inl rfl

theorem commitRunsName_cases (db : Store) (t : Txn) (w : World) :
    wp exec (fun _ => True) (commitRunsName db t) (fun a _ => a.2 = .ok ∨ a.2 = .io ∨ a.2 = .full) w := by
  unfold commitRunsName
  simp only [wp_bind]
  refine wp_any (fun ⟨db', rc⟩ w => ?_) w
  dsimp only
  split
  · simp only [wp_bind]
    refine wp_any (fun db w => wp_any (fun db w => Or.inr (fullOrIo_cases rc)) w) w
  · simp only [wp_bind]
    exact wp_any (fun db w => Or.inl rfl) w

theorem commitRuns_io (db : Store) (t : Txn) (w : World) :
    wp exec (fun _ => True) (commitRuns db t) (fun a _ => a.1.failed = true → a.2 = .io ∨ a.2 = .full) w := by
  unfold commitRuns
  rw [wp_bind]
  refine wp_any (fun ⟨db, t, rc⟩ w => ?_) w
  dsimp only
  split
  · rw [wp_bind]
    exact wp_any (fun db w _ => fullOrIo_cases rc) w
  · rw [wp_bind]
    refine wp_use (commitRunsName_cases db t w) (fun ⟨db, rc⟩ w h => ?_)
    dsimp only at h ⊢
    by_cases hr : rc = .ok
    · rw [if_neg (not_not.2 hr), wp_bind]
      refine wp_any (fun db w => ?_) w
      rw [wp_bind]
      refine wp_any (fun ⟨db, rc⟩ w => wp_use (slice_io (fun h hf => ?_)) (fun a _ ha hf => Or.inl (ha hf))) w
      exact absurd (h.symm.trans hf) (by decide)
    · rw [if_pos hr]
      exact fun _ => h.resolve_left hr

end Lsm
end Gbasic
