import Gbasic.LsmTold
/-!
# LsmNoRetry — a failed flush is never retried

Over runs of an open store: once a sync of its own has failed, no operation that looks at the flag does anything more.
What a backup syncs is its destination's (`Aside`).
-/
namespace Gbasic
namespace Lsm

open Prog

variable {s : Sys} {op : Op} {w : World}

/-! ## Backups -/

def Aside (a b : Backup × World) : Prop :=
  b.1.tmp.cfg.dir = a.1.tmp.cfg.dir ∧ ∃ l, b.2.trace = l ++ a.2.trace ∧
    ∀ p ∈ l, syncOf p.1 = none ∨ syncOf p.1 = some a.1.tmp.cfg.dir

theorem Aside.trans (a b c : Backup × World) (h : Aside a b) (h' : Aside b c) : Aside a c := by
  obtain ⟨hd, l, hl, hc⟩ := h
  obtain ⟨hd', l', hl', hc'⟩ := h'
  refine ⟨hd'.trans hd, l' ++ l, by rw [hl', hl, List.append_assoc], fun p hp => ?_⟩
  rcases List.mem_append.1 hp with hp | hp
  · rw [← hd]
    exact hc' p hp
  · exact hc p hp

abbrev Apart {α : Type} (bk : Backup) (p : M α) (out : α → Backup) : Prop := Moves exec Aside bk p out

namespace Apart

variable {α β : Type} {bk : Backup}

theorem pure {a : α} {out : α → Backup} (h : (out a).tmp.cfg.dir = bk.tmp.cfg.dir) :
    Apart bk (Pure.pure a : M α) out := Moves.pure (fun _ => ⟨h, [], rfl, fun _ hp => by cases hp⟩)

theorem bind {p : M α} {out : α → Backup} {f : α → M β} {out' : β → Backup} (hp : Apart bk p out)
    (hf : ∀ a, Apart (out a) (f a) out') : Apart bk (p >>= f) out' := Moves.bind Aside.trans hp hf

theorem ite {c : Prop} [Decidable c] {p q : M α} {out : α → Backup} (hp : Apart bk p out) (hq : Apart bk q out) :
    Apart bk (if c then p else q) out := Moves.ite (fun _ => hp) (fun _ => hq)

theorem «from» (bk' : Backup) {p : M α} {out : α → Backup} (hp : Apart bk' p out)
    (h : bk'.tmp.cfg.dir = bk.tmp.cfg.dir) : Apart bk p out :=
  Moves.from Aside.trans (fun _ => ⟨h, [], rfl, fun _ hp => by cases hp⟩) hp

theorem io {o : IoOp} (h : syncOf o = none ∨ syncOf o = some bk.tmp.cfg.dir) : Apart bk (Lsm.io o) (fun _ => bk) := by
  intro w
  refine ⟨trivial, rfl, [(o, (exec w o).1.err)], trace_exec w o, fun p hp => ?_⟩
  rw [List.mem_singleton.1 hp]
  exact h

theorem call {o : IoOp} (h : syncOf o = none ∨ syncOf o = some bk.tmp.cfg.dir) : Apart bk (Lsm.call o) (fun _ => bk) :=
  bind (io h) (fun _ => pure rfl)

theorem tmp {p : M α} {out : α → Store} (out' : α → Backup) (hp : Stay bk.tmp p out)
    (h : ∀ a, (out a).cfg.dir = bk.tmp.cfg.dir → (out' a).tmp.cfg.dir = bk.tmp.cfg.dir) : Apart bk p out' := by
  intro w
  refine wp_use (hp w) (fun a w' ha => ⟨h a ha.dir, ?_⟩)
  obtain ⟨l, hl, hc⟩ := ha.calls
  exact ⟨l, hl, fun p hp => (hc p hp).imp_right (·.1)⟩

end Apart

theorem apart_jobSize (bk : Backup) (db : Store) (j : CopyJob) : Apart bk (jobSize db j) (fun _ => bk) := by
  unfold jobSize
  cases j.size with
  | some n => exact .pure rfl
  | none => exact .bind (.io (.inl rfl)) (fun _ => .pure rfl)

theorem apart_keepSize (bk : Backup) (db : Store) (j : CopyJob) : Apart bk (keepSize db j) (fun _ => bk) := by
  unfold keepSize
  cases j.size with
  | some n => exact .pure rfl
  | none => exact .bind (.call (.inl rfl)) (fun _ => .ite (.pure rfl) (apart_jobSize bk db j))

theorem apart_keepFile (bk : Backup) (db : Store) (dest : Nat) (j : CopyJob) :
    Apart bk (keepFile db dest j) (fun _ => bk) := by
  refine .bind (apart_keepSize bk db j) (fun ⟨j, rc⟩ => .ite (.pure rfl) (.bind (.call (.inl rfl)) (fun _ => ?_)))
  refine .ite (.pure rfl) (.bind (.io (.inl rfl)) (fun _ => ?_))
  exact .bind (.io (.inl rfl)) (fun _ => .pure rfl)

theorem apart_keepFiles (bk : Backup) (db : Store) (dest : Nat) : ∀ l, Apart bk (keepFiles db dest l) (fun _ => bk)
  | [] => .pure rfl
  | j :: l => by
    refine .bind (apart_keepFile bk db dest j) (fun ⟨j, keep, rc⟩ => .ite (.pure rfl) ?_)
    exact .bind (apart_keepFiles bk db dest l) (fun ⟨_, _⟩ => .pure rfl)

theorem apart_removeNames (bk : Backup) (dir : Nat) : ∀ l, Apart bk (removeNames dir l) (fun _ => bk)
  | [] => .pure rfl
  | _ :: l => .bind (.call (.inl rfl)) (fun _ => apart_removeNames bk dir l)

theorem apart_backupPrepare (db : Store) (bk : Backup) : Apart bk (backupPrepare db bk) (·.1) := by
  refine .bind (.call (.inl rfl)) (fun _ => .bind (.call (.inl rfl)) (fun _ => .ite (.pure rfl) ?_))
  refine .bind (apart_keepFiles bk db _ _) (fun ⟨jobs, rc⟩ => .ite (.pure rfl) (.bind (.io (.inl rfl)) (fun a => ?_)))
  refine .ite (.pure rfl) (.bind (apart_removeNames _ _ _) (fun _ => ?_))
  exact .bind (.call (.inl rfl)) (fun _ => .pure rfl)

theorem apart_copyChunks (bk : Backup) (db : Store) (dest : Nat) (budget : Option Nat) (size : Nat) :
    ∀ (f : Nat) (j : CopyJob) (spent : Nat), Apart bk (copyChunks db dest budget size f j spent) (fun _ => bk)
  | 0, _, _ => .pure rfl
  | f + 1, j, spent => by
    refine .ite (.pure rfl) (.bind (.io (.inl rfl)) (fun a => .ite (.pure rfl) (.ite (.pure rfl) ?_)))
    exact .bind (.call (.inl rfl)) (fun _ => .ite (.pure rfl) (apart_copyChunks bk db dest budget size f _ _))

theorem apart_copyOpen (db : Store) (bk : Backup) (j : CopyJob) : Apart bk (copyOpen db bk j) (·.1) := by
  refine .ite (.pure rfl) (.bind (.call (.inl rfl)) (fun _ => .ite (.pure rfl) ?_))
  refine .bind (apart_jobSize _ db j) (fun ⟨j, rc⟩ => .ite (.pure rfl) (.bind (.call (.inl rfl)) (fun _ => ?_)))
  exact .bind (.call (.inl rfl)) (fun _ => .pure rfl)

theorem apart_copyFiles (db : Store) (budget : Option Nat) : ∀ (l : List CopyJob) (bk : Backup) (spent : Nat),
    Apart bk (copyFiles db budget l bk spent) (·.1)
  | [], _, _ => .pure rfl
  | j :: l, bk, spent => by
    unfold copyFiles
    refine .ite (.pure rfl) (.ite (Apart.from _ (apart_copyFiles db budget l _ _) rfl) ?_)
    refine Apart.from { bk with jobs := j :: l } ?_ rfl
    refine .bind (apart_copyOpen db _ j) (fun ⟨bk, j, rc⟩ => .ite (.pure rfl) ?_)
    refine .bind (apart_copyChunks bk db _ budget _ _ _ _) (fun ⟨j, spent, rc⟩ => .ite (.pure rfl) ?_)
    refine .bind (.call (.inr rfl)) (fun _ => .ite (.pure rfl) (.ite (.pure rfl) ?_))
    exact Apart.from _ (apart_copyFiles db budget l _ _) rfl

/-! The memtables' files are the copy's store's to write. -/

theorem stay_memBuilder (bk : Backup) : Stay bk.tmp (memBuilder bk) (·.1) := by
  unfold memBuilder
  cases bk.b with
  | some b => exact .pure rfl id
  | none => exact stay_bldOpen _

theorem stay_memEmit (bk : Backup) (e : Ent) : Stay bk.tmp (memEmit bk e) (·.1.tmp) := by
  refine .ite (.pure rfl id) (.bind (stay_memBuilder _) (fun ⟨tmp, b⟩ => .ite (.pure rfl id) ?_))
  exact .bind (stay_bldAdd tmp b e) (fun ⟨_, _⟩ => .pure rfl id)

theorem stay_memWalk (ms : Mems) (budget : Option Nat) : ∀ (f : Nat) (bk : Backup) (spent : Nat),
    Stay bk.tmp (memWalk ms budget f bk spent) (·.1.tmp)
  | 0, _, _ => .pure rfl id
  | f + 1, bk, spent => by
    unfold memWalk
    cases bk.node with
    | none => exact .pure rfl id
    | some n =>
      refine .ite (.pure rfl id) (.bind (stay_memEmit _ _) (fun ⟨bk, _, rc⟩ => .ite (.pure rfl id) ?_))
      exact stay_memWalk ms budget f bk _

theorem stay_memClose (bk : Backup) : Stay bk.tmp (memClose bk) (·.1.tmp) := by
  unfold memClose
  cases bk.b with
  | none => exact .pure rfl id
  | some b =>
    refine .bind (stay_bldClose _ b) (fun ⟨tmp, fm, rc⟩ => .ite (.pure rfl id) ?_)
    cases fm <;> exact .pure rfl id

theorem stay_copyMems (ms : Mems) (budget : Option Nat) : ∀ (f : Nat) (bk : Backup) (spent : Nat),
    Stay bk.tmp (copyMems ms budget f bk spent) (·.1.tmp)
  | 0, _, _ => .pure rfl id
  | f + 1, bk, spent => by
    unfold copyMems
    refine .bind (stay_memWalk ms budget _ bk spent) (fun ⟨bk, spent, rc⟩ =>
      .ite (.pure rfl id) (.ite (.pure rfl id) ?_))
    refine .bind (stay_memClose bk) (fun ⟨bk, rc⟩ => .ite (.pure rfl id) ?_)
    dsimp only
    cases bk.after with
    | none => exact .pure rfl id
    | some n => exact stay_copyMems ms budget f { bk with node := some n, after := none, lastKey := none } spent

theorem apart_copyMems (ms : Mems) (budget : Option Nat) (f : Nat) (bk : Backup) (spent : Nat) :
    Apart bk (copyMems ms budget f bk spent) (·.1) := .tmp _ (stay_copyMems ms budget f bk spent) (fun _ h => h)

theorem apart_copyFinish (bk : Backup) : Apart bk (copyFinish bk) (·.1) := by
  refine .bind (.call (.inl rfl)) (fun _ => .bind (.call (.inl rfl)) (fun _ => .ite (.pure rfl) ?_))
  refine .bind (.call (.inr rfl)) (fun _ => .ite (.pure rfl) ?_)
  exact .bind (.tmp (fun x => { bk with tmp := x.1 }) (stay_manifestWrite bk.tmp) (fun _ h => h))
    (fun ⟨_, _⟩ => .pure rfl)

theorem apart_backupStep (db : Store) (bk : Backup) (budget : Option Nat) :
    Apart bk (backupStep db bk budget) (·.1) := by
  refine .ite (.pure rfl) (.ite (.pure rfl) (.bind (apart_copyFiles db budget _ bk 0) (fun ⟨bk, spent, rc⟩ => ?_)))
  refine .ite (.pure rfl) (.ite (.pure rfl) (.bind (apart_copyMems _ budget 2 bk spent) (fun ⟨bk, all, rc⟩ => ?_)))
  exact .ite (.pure rfl) (apart_copyFinish bk)

/-! ## One operation -/

def Away (s : Sys) : Prop := ∀ b bk, s.baks b = some bk → bk.tmp.cfg.dir ≠ s.db.cfg.dir

/-- What an operation does to the flag: it stays set, and one of the store's own syncs that fails sets it, unless it
was the one that names a spare log. -/
structure SysStays (a b : Sys × World) : Prop where
  cfg : b.1.db.cfg = a.1.db.cfg
  away : Away b.1
  failed : a.1.db.failed = true → b.1.db.failed = true
  calls : ∃ l, b.2.trace = l ++ a.2.trace ∧ ∀ p ∈ l, syncOf p.1 = some a.1.db.cfg.dir → namesSpare p.1 = false →
    p.2 ≠ none → b.1.db.failed = true

theorem SysStays.of_stay (hs : Away s) {α : Type} {p : M α} {out : α → Store} (hp : Stay s.db p out)
    {k : α → M (Sys × Answer)} (hk : ∀ a, ∃ r, k a = pure r ∧ r.1.db = out a ∧ r.1.baks = s.baks) (w : World) :
    wp exec (fun _ => True) (p >>= k) (fun r w' => SysStays (s, w) (r.1, w')) w := by
  rw [wp_bind]
  refine wp_use (hp w) (fun a w' h => ?_)
  obtain ⟨r, hr, hdb, hbaks⟩ := hk a
  rw [hr]
  refine ⟨?_, fun b bk hb => ?_, ?_, ?_⟩
  · rw [hdb]; exact h.cfg
  · rw [hbaks] at hb
    rw [hdb, h.dir]
    exact hs b bk hb
  · rw [hdb]; exact h.failed
  · obtain ⟨l, hl, hc⟩ := h.calls
    refine ⟨l, hl, fun p hp ho hn he => ?_⟩
    rcases hc p hp with h' | h'
    · rw [h'] at ho; cases ho
    · rw [hdb]
      exact h'.2 hn he

theorem SysStays.of_pure {r : Sys × Answer} (hdb : r.1.db = s.db) (hb : Away s → Away r.1) (hs : Away s) (w : World) :
    wp exec (fun _ => True) (pure r) (fun r w' => SysStays (s, w) (r.1, w')) w :=
  ⟨by rw [hdb], hb hs, by rw [hdb]; exact id, [], rfl, fun _ hp => by cases hp⟩

theorem SysStays.none (hs : Away s) (a : Answer) (w : World) :
    wp exec (fun _ => True) (pure (s, a)) (fun r w' => SysStays (s, w) (r.1, w')) w :=
  SysStays.of_pure (s := s) rfl id hs w

theorem SysStays.onTxn {s : Sys} (hs : Away s) (h : Nat) (f : Rd → Store → Txn → Txn × Answer) (w : World) :
    wp exec (fun _ => True) (onTxn s h f) (fun r w' => SysStays (s, w) (r.1, w')) w := by
  unfold Lsm.onTxn
  cases s.txns h with
  | none => exact SysStays.none hs _ w
  | some t => exact SysStays.of_stay hs (stay_reads s.db) (fun rd => ⟨_, rfl, rfl, rfl⟩) w

theorem SysStays.onCur {s : Sys} (hs : Away s) (c : Nat) (f : Rd → Store → Txn → Cur → Txn × Cur × Answer) (w : World) :
    wp exec (fun _ => True) (onCur s c f) (fun r w' => SysStays (s, w) (r.1, w')) w := by
  unfold Lsm.onCur
  cases s.curs c with
  | none => exact SysStays.none hs _ w
  | some x =>
    obtain ⟨h, x⟩ := x
    dsimp only
    cases s.txns h with
    | none => exact SysStays.none hs _ w
    | some t => exact SysStays.of_stay hs (stay_reads s.db) (fun rd => ⟨_, rfl, rfl, rfl⟩) w

theorem SysStays.onWrite {s : Sys} (hs : Away s) (h : Nat) (f : Store → Txn → M (Store × Txn × Status))
    (hf : ∀ db t, Stay db (f db t) (·.1)) (w : World) :
    wp exec (fun _ => True) (onWrite s h f) (fun r w' => SysStays (s, w) (r.1, w')) w := by
  unfold Lsm.onWrite
  cases s.txns h with
  | none => exact SysStays.none hs _ w
  | some t => exact SysStays.of_stay hs (hf s.db t) (fun ⟨_, _, _⟩ => ⟨_, rfl, rfl, rfl⟩) w

theorem SysStays.of_aside {w' : World} {bk bk' : Backup} {b : Nat} (hs : Away s) (hd : bk.tmp.cfg.dir ≠ s.db.cfg.dir)
    (h : Aside (bk, w) (bk', w')) : SysStays (s, w) (s.setBak b (some bk'), w') := by
  obtain ⟨hdir, l, hl, hc⟩ := h
  refine ⟨rfl, fun b' bk'' hb => ?_, id, l, hl, fun p hp ho => ?_⟩
  · simp only [Sys.setBak] at hb ⊢
    split at hb
    · cases hb
      exact hdir ▸ hd
    · exact hs b' bk'' hb
  · rcases hc p hp with h' | h'
    · rw [h'] at ho; cases ho
    · exact absurd (Option.some.inj (h'.symm.trans ho)) hd

theorem beginWrite_same (fenced : Bool) (db : Store) :
    (beginWrite fenced db).1.cfg = db.cfg ∧ (beginWrite fenced db).1.failed = db.failed := by
  unfold beginWrite
  split
  · exact ⟨rfl, rfl⟩
  split
  · exact ⟨rfl, rfl⟩
  split <;> exact ⟨rfl, rfl⟩

theorem leaseKeep_same (s : Sys) (renewed : Status) :
    (leaseKeep s renewed).1.db = s.db ∧ (leaseKeep s renewed).1.baks = s.baks := by
  unfold leaseKeep
  split <;> exact ⟨rfl, rfl⟩

theorem backupBegin_aside (db : Store) (snap : Txn) (dest : Nat) (w : World) :
    wp exec (fun _ => True) (backupBegin db snap dest) (fun a w' =>
      a.1 = none ∧ w' = w ∨ ∃ bk bk', a.1 = some bk' ∧ bk.tmp.cfg.dir ≠ db.cfg.dir ∧ Aside (bk, w) (bk', w')) w := by
  unfold backupBegin
  split
  · exact Or.inl ⟨rfl, rfl⟩
  split
  · exact Or.inl ⟨rfl, rfl⟩
  split
  · exact Or.inl ⟨rfl, rfl⟩
  · rename_i hd
    rw [wp_bind]
    exact wp_use (apart_backupPrepare db _ w) (fun ⟨bk', rc⟩ w' h => Or.inr ⟨_, bk', rfl, hd, h⟩)

theorem openStep_stays (hs : Away s) (op : Op) (w : World) :
    wp exec (fun _ => True) (openStep s op) (fun r w' => SysStays (s, w) (r.1, w')) w := by
  cases op <;> dsimp only [openStep, onMove]
  case beginRead h =>
    split
    · exact SysStays.none hs _ w
    · exact SysStays.of_stay hs (stay_beginRead s.db) (fun ⟨_, _, _⟩ => ⟨_, rfl, rfl, rfl⟩) w
  case beginWrite h =>
    split
    · exact SysStays.none hs _ w
    · obtain ⟨hcfg, hfailed⟩ := beginWrite_same s.fenced s.db
      refine ⟨hcfg, fun b bk hb he => hs b bk hb (he.trans (congrArg (·.dir) hcfg)), fun hf => ?_, [], rfl,
        fun _ hp => ?_⟩
      · exact hfailed.trans hf
      · cases hp
  case commit h sync =>
    cases s.txns h with
    | none => exact SysStays.none hs _ w
    | some t =>
      refine SysStays.of_stay hs (stay_commit s.db t sync) (fun ⟨db, rc⟩ => ?_) w
      by_cases hm : rc = .misuse ∧ t.write = false
      · exact ⟨_, if_pos hm, rfl, rfl⟩
      · exact ⟨_, if_neg hm, rfl, rfl⟩
  case abort h =>
    cases s.txns h with
    | none => exact SysStays.none hs _ w
    | some t => exact SysStays.of_stay hs (stay_abort s.db t) (fun _ => ⟨_, rfl, rfl, rfl⟩) w
  case sync => exact SysStays.of_stay hs (stay_sync s.db) (fun ⟨_, _⟩ => ⟨_, rfl, rfl, rfl⟩) w
  case flush => exact SysStays.of_stay hs (stay_flush s.db) (fun ⟨_, _⟩ => ⟨_, rfl, rfl, rfl⟩) w
  case treeCreate h _ | treeDrop h _ | treeReplace h _ _ | get h _ _ | savepoint h | release h | treeList h _
    | estimate h _ | txnId h => exact SysStays.onTxn hs h _ w
  case put h tree key value fl => exact SysStays.onWrite hs h _ (fun db t => stay_put db t tree key value fl) w
  case del h tree key => exact SysStays.onWrite hs h _ (fun db t => stay_del db t tree key) w
  case cursorOpen h c tree =>
    cases s.txns h with
    | none => exact SysStays.none hs _ w
    | some t =>
      dsimp only
      split
      · exact SysStays.none hs _ w
      · exact SysStays.of_stay hs (stay_reads s.db) (fun rd => ⟨_, rfl, rfl, rfl⟩) w
  case cursorClose c =>
    cases s.curs c with
    | none => exact SysStays.none hs _ w
    | some x => exact SysStays.of_pure (s := s) rfl id hs w
  case seek c _ _ | first c | last c | next c | prev c | key c | value c | cursorPut c _ | cursorDelete c =>
    exact SysStays.onCur hs c _ w
  case rollback h => exact SysStays.onWrite hs h _ (fun db t => stay_rollbackSavepoint db t) w
  case backupBegin h b dest =>
    cases s.txns h with
    | none => exact SysStays.none hs _ w
    | some t =>
      dsimp only
      split
      · exact SysStays.none hs _ w
      · rw [wp_bind]
        refine wp_use (backupBegin_aside s.db t dest w) (fun ⟨bk, rc⟩ w' h => ?_)
        rcases h with ⟨rfl, rfl⟩ | ⟨bk, bk', rfl, hd, h⟩
        · refine SysStays.of_pure (s := s) rfl (fun hs b' bk' hb => ?_) hs w'
          simp only [Sys.setBak] at hb
          split at hb
          · cases hb
          · exact hs b' bk' hb
        · exact SysStays.of_aside hs hd h
  case backupStep b budget =>
    cases hb : s.baks b with
    | none => exact SysStays.none hs _ w
    | some bk =>
      dsimp only
      rw [wp_bind]
      exact wp_use (apart_backupStep s.db bk budget w) (fun ⟨bk', rc⟩ w' h => SysStays.of_aside hs (hs b bk hb) h)
  case backupEnd b =>
    refine SysStays.of_pure (s := s) rfl (fun hs b' bk' hb => ?_) hs w
    simp only [Sys.setBak] at hb
    split at hb
    · cases hb
    · exact hs b' bk' hb
  case check garbage => exact SysStays.of_stay hs (stay_check s.db garbage) (fun _ => ⟨_, rfl, rfl, rfl⟩) w
  case leaseKeep renewed =>
    have hsame := leaseKeep_same s renewed
    exact SysStays.of_pure hsame.1 (fun hs => by rwa [Away, hsame.1, hsame.2]) hs w
  case close => exact SysStays.of_stay hs (stay_close s.db) (fun ⟨_, _, _⟩ => ⟨_, rfl, rfl, rfl⟩) w

/-- **One operation** leaves the flag as `SysStays` says, whatever its calls answer. -/
theorem apiStep_stays (hs : Away s) (op : Op) (w : World) :
    wp exec (fun _ => True) (apiStep s op) (fun r w' => SysStays (s, w) (r.1, w')) w := by
  unfold apiStep
  split
  · exact SysStays.none hs _ w
  · exact openStep_stays hs op w

/-! ## On a failed store -/

/-- The operation looks at the flag before it answers anything else.  A cursor that is open, a savepoint's release, a
commit or a backup refused for the kind of its transaction, a backup that is finished, a transaction's id, the check and
the lease do not; a write begun under a lease that was taken is told that; and a close answers OK on a failed store. -/
def asks (s : Sys) : Op → Bool
  | .beginWrite h => !s.fenced || (s.txns h).isSome
  | .commit h _ => (s.txns h).all (·.write)
  | .backupBegin h _ _ => (s.txns h).all (!·.write)
  | .backupStep b _ => (s.baks b).all (!·.finished)
  | .seek c _ _ | .first c | .last c | .next c | .prev c | .key c | .value c => (s.curs c).isNone
  | .release h | .txnId h => (s.txns h).isNone
  | .check _ | .leaseKeep _ | .close => false
  | _ => true

/-- No answer, or FAILED; nothing is synced again, and nothing more is durable. -/
structure Refuses (s : Sys) (w : World) (r : Sys × Answer) (w' : World) : Prop where
  answer : r.2.1 = none ∨ r.2.1 = some .failed
  durable : r.1.db.durableSeq = s.db.durableSeq
  calls : ∃ l, w'.trace = l ++ w.trace ∧ ∀ p ∈ l, syncOf p.1 = none

theorem noCalls (w : World) : ∃ l, w.trace = l ++ w.trace ∧ ∀ p ∈ l, syncOf p.1 = none :=
  ⟨[], rfl, fun _ hp => by cases hp⟩

theorem Refuses.none (s : Sys) (x : Out) (w : World) :
    wp exec (fun _ => True) (pure (s, Option.none, x)) (Refuses s w) w := ⟨Or.inl rfl, rfl, noCalls w⟩

theorem Refuses.bind {α : Type} {p : M α} {out : α → Store} {k : α → M (Sys × Answer)} (hp : Keep s.db p out)
    (hk : ∀ a, ∃ r, k a = pure r ∧ r.1.db = out a ∧ (r.2.1 = Option.none ∨ r.2.1 = some .failed)) (w : World) :
    wp exec (fun _ => True) (p >>= k) (Refuses s w) w := by
  rw [wp_bind]
  refine wp_use (hp w) (fun a w' h => ?_)
  obtain ⟨r, hr, hdb, ha⟩ := hk a
  rw [hr]
  exact ⟨ha, (congrArg Store.durableSeq hdb).trans h.durableSeq, h.calls⟩

theorem writable_failed {db : Store} (h : db.failed = true) (t : Txn) : writable db t = .failed := by
  unfold writable
  rw [if_pos h]

theorem Refuses.onTxn {s : Sys} (h : Nat) {f : Rd → Store → Txn → Txn × Answer}
    (hf : ∀ rd t, (f rd s.db t).2.1 = some .failed) (w : World) :
    wp exec (fun _ => True) (onTxn s h f) (Refuses s w) w := by
  unfold Lsm.onTxn
  cases s.txns h with
  | none => exact Refuses.none s _ w
  | some t => exact Refuses.bind (keep_reads s.db) (fun rd => ⟨_, rfl, rfl, Or.inr (hf rd t)⟩) w

theorem Refuses.onCur {s : Sys} (c : Nat) {f : Rd → Store → Txn → Cur → Txn × Cur × Answer}
    (hf : (s.curs c).isNone = true ∨ ∀ rd t x, (f rd s.db t x).2.2.1 = some .failed) (w : World) :
    wp exec (fun _ => True) (onCur s c f) (Refuses s w) w := by
  unfold Lsm.onCur
  cases hc : s.curs c with
  | none => exact Refuses.none s _ w
  | some x =>
    obtain ⟨h, x⟩ := x
    dsimp only
    cases s.txns h with
    | none => exact Refuses.none s _ w
    | some t =>
      rcases hf with hf | hf
      · rw [hc] at hf; cases hf
      · exact Refuses.bind (keep_reads s.db) (fun rd => ⟨_, rfl, rfl, Or.inr (hf rd t x)⟩) w

theorem Refuses.onWrite {s : Sys} (h : Nat) {f : Store → Txn → M (Store × Txn × Status)}
    (hf : ∀ t, f s.db t = pure (s.db, t, .failed)) (w : World) :
    wp exec (fun _ => True) (onWrite s h f) (Refuses s w) w := by
  unfold Lsm.onWrite
  cases s.txns h with
  | none => exact Refuses.none s _ w
  | some t =>
    dsimp only
    rw [hf]
    exact ⟨Or.inr rfl, rfl, noCalls w⟩

theorem openStep_refuses (hf : s.db.failed = true) (op : Op) (ha : asks s op = true) (w : World) :
    wp exec (fun _ => True) (openStep s op) (Refuses s w) w := by
  have hw : ∀ t, ¬ writable s.db t = .ok := fun t => by rw [writable_failed hf]; decide
  cases op <;> dsimp only [openStep, onMove] <;> dsimp only [asks] at ha
  case beginRead h =>
    unfold beginRead
    split
    · exact Refuses.none s _ w
    · exact ⟨Or.inr rfl, rfl, noCalls w⟩
  case beginWrite h =>
    split
    · exact Refuses.none s _ w
    · have hl : ¬ s.fenced = true := by simp_all
      unfold beginWrite
      rw [if_neg hl, if_pos hf]
      exact ⟨Or.inr rfl, rfl, noCalls w⟩
  case commit h sync =>
    cases ht : s.txns h with
    | none => exact Refuses.none s _ w
    | some t =>
      have hwr : t.write = true := by rw [ht] at ha; exact ha
      dsimp only
      unfold commit
      rw [if_neg (by simp [hwr]), if_pos hf]
      simp only [wp_bind]
      refine wp_use (keep_abort s.db t w) (fun db w' h => ?_)
      simp only [wp_pure, reduceCtorEq, false_and, if_false]
      exact ⟨Or.inr rfl, h.durableSeq, h.calls⟩
  case abort h =>
    cases s.txns h with
    | none => exact Refuses.none s _ w
    | some t => exact Refuses.bind (keep_abort s.db t) (fun _ => ⟨_, rfl, rfl, Or.inl rfl⟩) w
  case sync =>
    unfold sync
    rw [if_pos hf]
    exact ⟨Or.inr rfl, rfl, noCalls w⟩
  case flush =>
    unfold flush
    rw [if_pos hf]
    exact ⟨Or.inr rfl, rfl, noCalls w⟩
  case treeCreate h _ | treeDrop h _ | treeReplace h _ _ | savepoint h =>
    refine Refuses.onTxn h (fun rd t => ?_) w
    simp [treeCreate, treeDrop, treeReplace, savepoint, writable_failed hf]
  case get h _ _ | treeList h _ | estimate h _ =>
    refine Refuses.onTxn h (fun rd t => ?_) w
    simp only [get, treeList, estimate, if_pos hf]
  case put h _ _ _ _ | del h _ _ | rollback h =>
    refine Refuses.onWrite h (fun t => ?_) w
    simp [put, del, rollbackSavepoint, writable_failed hf]
  case cursorOpen h c tree =>
    cases s.txns h with
    | none => exact Refuses.none s _ w
    | some t =>
      dsimp only
      split
      · exact Refuses.none s _ w
      · refine Refuses.bind (keep_reads s.db) (fun rd => ⟨_, rfl, rfl, Or.inr ?_⟩) w
        unfold cursorOpen
        rw [if_pos hf]
  case cursorClose c =>
    cases s.curs c with
    | none => exact Refuses.none s _ w
    | some x => exact ⟨Or.inl rfl, rfl, noCalls w⟩
  case seek c _ _ | first c | last c | next c | prev c | key c | value c => exact Refuses.onCur c (Or.inl ha) w
  case cursorPut c _ | cursorDelete c =>
    refine Refuses.onCur c (Or.inr (fun rd t x => ?_)) w
    simp [cursorPut, cursorDelete, writable_failed hf]
  case release h | txnId h =>
    cases ht : s.txns h with
    | none =>
      unfold Lsm.onTxn
      rw [ht]
      exact Refuses.none s _ w
    | some t => rw [ht] at ha; cases ha
  case backupBegin h b dest =>
    cases ht : s.txns h with
    | none => exact Refuses.none s _ w
    | some t =>
      have hr : ¬ t.write = true := by rw [ht] at ha; simpa using ha
      dsimp only
      split
      · exact Refuses.none s _ w
      · unfold backupBegin
        rw [if_neg hr, if_pos hf]
        exact ⟨Or.inr rfl, rfl, noCalls w⟩
  case backupStep b budget =>
    cases hb : s.baks b with
    | none => exact Refuses.none s _ w
    | some bk =>
      have hd : ¬ bk.finished = true := by rw [hb] at ha; simpa using ha
      dsimp only
      unfold backupStep
      rw [if_neg hd, if_pos hf]
      exact ⟨Or.inr rfl, rfl, noCalls w⟩
  case backupEnd b => exact ⟨Or.inl rfl, rfl, noCalls w⟩
  case check | leaseKeep | close => cases ha

/-- **A failed store** answers FAILED where it looks at the flag. -/
theorem apiStep_refuses (hf : s.db.failed = true) (op : Op) (ha : asks s op = true) (w : World) :
    wp exec (fun _ => True) (apiStep s op) (Refuses s w) w := by
  unfold apiStep
  split
  · exact Refuses.none s _ w
  · exact openStep_refuses hf op ha w

/-! ## In the operation in which a sync fails -/

/-- A read that may move a flush on, and a close: what the slice, and the sync, answers is not looked at. -/
def slices : Op → Bool
  | .beginRead _ | .close => true
  | _ => false

def spilled (s : Sys) : Op → Bool
  | .commit h _ => (s.txns h).any (fun t => !t.runs.isEmpty)
  | _ => false

/-- FAILED, or the error of the call in progress: IO, or FULL where a commit of runs passes that on. -/
def Tells (s : Sys) (op : Op) (a : Answer) : Prop :=
  a.1 = some .failed ∨ a.1 = some .io ∨ a.1 = some .full ∧ spilled s op = true

def Says (s : Sys) (op : Op) (r : Sys × Answer) : Prop :=
  s.db.failed = false → r.1.db.failed = true → Tells s op r.2

theorem Says.same {r : Sys × Answer} (h : r.1.db.failed = s.db.failed) : Says s op r :=
  fun hf hf' => absurd (hf.symm.trans (h.symm.trans hf')) (by decide)

theorem Says.none (s : Sys) (op : Op) (a : Answer) (w : World) :
    wp exec (fun _ => True) (pure (s, a)) (fun r _ => Says s op r) w := Says.same rfl

theorem Says.kept {α : Type} {p : M α} {out : α → Store} {k : α → M (Sys × Answer)} (hp : Keep s.db p out)
    (hk : ∀ a, ∃ r, k a = pure r ∧ r.1.db = out a) (w : World) :
    wp exec (fun _ => True) (p >>= k) (fun r _ => Says s op r) w := by
  rw [wp_bind]
  refine wp_use (hp w) (fun a w' h => ?_)
  obtain ⟨r, hr, hdb⟩ := hk a
  rw [hr]
  exact Says.same ((congrArg Store.failed hdb).trans h.failed)

theorem Says.told {α : Type} {p : M α} {out : α → Store} {rc : α → Status} {k : α → M (Sys × Answer)}
    (hp : Told s.db p out rc) (hk : ∀ a, ∃ r, k a = pure r ∧ r.1.db = out a ∧ r.2.1 = some (rc a)) (w : World) :
    wp exec (fun _ => True) (p >>= k) (fun r _ => Says s op r) w := by
  rw [wp_bind]
  refine wp_use (hp w) (fun a w' h => ?_)
  obtain ⟨r, hr, hdb, ha⟩ := hk a
  rw [hr]
  intro hf hf'
  rw [hdb] at hf'
  rcases h hf' with h | h
  · exact absurd (hf.symm.trans h) (by decide)
  · exact Or.inr (Or.inl (by rw [ha, h]))

theorem Says.onTxn {s : Sys} {op : Op} (h : Nat) (f : Rd → Store → Txn → Txn × Answer) (w : World) :
    wp exec (fun _ => True) (onTxn s h f) (fun r _ => Says s op r) w := by
  unfold Lsm.onTxn
  cases s.txns h with
  | none => exact Says.none s op _ w
  | some t => exact Says.kept (keep_reads s.db) (fun rd => ⟨_, rfl, rfl⟩) w

theorem Says.onCur {s : Sys} {op : Op} (c : Nat) (f : Rd → Store → Txn → Cur → Txn × Cur × Answer) (w : World) :
    wp exec (fun _ => True) (onCur s c f) (fun r _ => Says s op r) w := by
  unfold Lsm.onCur
  cases s.curs c with
  | none => exact Says.none s op _ w
  | some x =>
    obtain ⟨h, x⟩ := x
    dsimp only
    cases s.txns h with
    | none => exact Says.none s op _ w
    | some t => exact Says.kept (keep_reads s.db) (fun rd => ⟨_, rfl, rfl⟩) w

theorem Says.onWrite {s : Sys} {op : Op} (h : Nat) (f : Store → Txn → M (Store × Txn × Status))
    (hf : ∀ db t, Told db (f db t) (·.1) (·.2.2)) (w : World) :
    wp exec (fun _ => True) (onWrite s h f) (fun r _ => Says s op r) w := by
  unfold Lsm.onWrite
  cases s.txns h with
  | none => exact Says.none s op _ w
  | some t => exact Says.told (hf s.db t) (fun ⟨_, _, _⟩ => ⟨_, rfl, rfl, rfl⟩) w

theorem told_sync (db : Store) : Told db (sync db) (·.1) (·.2) := by
  refine .ite (fun _ => .pure Or.inl) (fun _ => .ite (fun _ => .pure Or.inl) (fun _ => ?_))
  refine .bind (told_flushFile db _) (fun ⟨db, rc⟩ hr => ⟨_, if_pos hr, rfl, rfl⟩) (fun ⟨db, rc⟩ hr => ?_)
  exact .ite (fun h => absurd hr h) (fun _ => .pure Or.inl)

theorem told_flush (db : Store) : Told db (flush db) (·.1) (·.2) := by
  refine .ite (fun _ => .pure Or.inl) (fun _ => .ite (fun _ => .pure Or.inl) (fun _ w => ?_))
  rw [wp_bind]
  refine wp_any (fun ⟨db', rc⟩ w => ?_) w
  dsimp only
  split
  · exact fun _ => Or.inr rfl
  · exact fun hf => absurd hf ‹_›

theorem told_commit {db : Store} {t : Txn} (sync : Bool) (h : t.runs = []) :
    Told db (commit db t sync) (·.1) (·.2) := by
  refine .ite (fun _ => .pure Or.inl) (fun _ => .ite (fun _ => ?_) (fun _ => .ite (fun _ => ?_) (fun _ => ?_)))
  · exact .kept (keep_abort db t) (fun _ => .pure Or.inl)
  · exact .kept (keep_abort db t) (fun _ => .pure Or.inl)
  · exact .ite (fun hr => absurd h hr) (fun _ => told_commitRecord db t sync)

theorem commit_tells (db : Store) (t : Txn) (sync : Bool) (w : World) :
    wp exec (fun _ => True) (commit db t sync) (fun a _ => db.failed = false → a.1.failed = true →
      a.2 = .io ∨ a.2 = .full ∧ t.runs ≠ []) w := by
  by_cases hr : t.runs = []
  · refine wp_use (told_commit sync hr w) (fun a w h hf hf' => Or.inl ((h hf').resolve_left ?_))
    rw [hf]
    decide
  · unfold commit
    split
    · exact fun h h' => absurd (h.symm.trans h') (by decide)
    split
    · rename_i hf
      exact wp_any (fun _ _ h => absurd (h.symm.trans hf) (by decide)) w
    split
    · rw [wp_bind]
      refine wp_use (keep_abort db t w) (fun db' w h hf hf' => ?_)
      exact absurd (hf.symm.trans (h.failed.symm.trans hf')) (by decide)
    · exact wp_use (commitRuns_io db t w) (fun a w h _ hf => (h hf).imp_right (fun h => ⟨h, hr⟩))

theorem openStep_tells (op : Op) (hop : slices op = false) (w : World) :
    wp exec (fun _ => True) (openStep s op) (fun r _ => Says s op r) w := by
  cases op <;> dsimp only [openStep, onMove]
  case beginRead h => cases hop
  case beginWrite h =>
    split
    · exact Says.none s _ _ w
    · exact Says.same (beginWrite_same s.fenced s.db).2
  case commit h sync =>
    cases ht : s.txns h with
    | none => exact Says.none s _ _ w
    | some t =>
      dsimp only
      rw [wp_bind]
      refine wp_use (commit_tells s.db t sync w) (fun ⟨db, rc⟩ w' h' => ?_)
      have hsays : s.db.failed = false → db.failed = true →
          Tells s (.commit h sync) (some rc, .none) := by
        intro hf hf'
        rcases h' hf hf' with hio | ⟨hfull, hr⟩
        · exact Or.inr (Or.inl (congrArg some hio))
        · refine Or.inr (Or.inr ⟨congrArg some hfull, ?_⟩)
          simp [spilled, ht, hr]
      dsimp only
      split <;> exact hsays
  case abort h =>
    cases s.txns h with
    | none => exact Says.none s _ _ w
    | some t => exact Says.kept (keep_abort s.db t) (fun _ => ⟨_, rfl, rfl⟩) w
  case sync => exact Says.told (told_sync s.db) (fun ⟨_, _⟩ => ⟨_, rfl, rfl, rfl⟩) w
  case flush => exact Says.told (told_flush s.db) (fun ⟨_, _⟩ => ⟨_, rfl, rfl, rfl⟩) w
  case treeCreate h _ | treeDrop h _ | treeReplace h _ _ | get h _ _ | savepoint h | release h | treeList h _
    | estimate h _ | txnId h => exact Says.onTxn h _ w
  case put h tree key value fl => exact Says.onWrite h _ (fun db t => told_put db t tree key value fl) w
  case del h tree key => exact Says.onWrite h _ (fun db t => told_del db t tree key) w
  case cursorOpen h c tree =>
    cases s.txns h with
    | none => exact Says.none s _ _ w
    | some t =>
      dsimp only
      split
      · exact Says.none s _ _ w
      · exact Says.kept (keep_reads s.db) (fun rd => ⟨_, rfl, rfl⟩) w
  case cursorClose c =>
    cases s.curs c with
    | none => exact Says.none s _ _ w
    | some x => exact Says.same rfl
  case seek c _ _ | first c | last c | next c | prev c | key c | value c | cursorPut c _ | cursorDelete c =>
    exact Says.onCur c _ w
  case rollback h => exact Says.onWrite h _ (fun db t => told_rollbackSavepoint db t) w
  case backupBegin h b dest =>
    cases s.txns h with
    | none => exact Says.none s _ _ w
    | some t =>
      dsimp only
      split
      · exact Says.none s _ _ w
      · rw [wp_bind]
        refine wp_any (fun a w => ?_) w
        exact Says.same rfl
  case backupStep b budget =>
    cases s.baks b with
    | none => exact Says.none s _ _ w
    | some bk =>
      dsimp only
      rw [wp_bind]
      refine wp_any (fun a w => ?_) w
      exact Says.same rfl
  case backupEnd b => exact Says.same rfl
  case check garbage =>
    rw [wp_bind]
    refine wp_any (fun _ _ => ?_) w
    exact Says.same rfl
  case leaseKeep renewed => exact Says.same (congrArg Store.failed (leaseKeep_same s renewed).1)
  case close => cases hop

/-- **The call in progress**: an operation that leaves the store failed says so, a read's slice of a flush and a close
apart. -/
theorem apiStep_tells (op : Op) (hop : slices op = false) (w : World) :
    wp exec (fun _ => True) (apiStep s op) (fun r _ => Says s op r) w := by
  unfold apiStep
  split
  · exact Says.none s _ _ w
  · exact openStep_tells op hop w

/-! ## Runs -/

/-- One of the store's own syncs failed in the operation. -/
def SyncFails (o : Obs) : Prop := ∃ p ∈ o.calls, syncOf p.1 = some o.before.db.cfg.dir ∧ p.2 ≠ none

/-- **What a step must be** for the store to keep its word: no flush of the directory that names a spare log fails; no
read's slice of the flush and no close has a sync fail in it; and on a store that is failed, an operation looks at the
flag. -/
structure Meets (o : Obs) : Prop where
  spare : ∀ p ∈ o.calls, syncOf p.1 = some o.before.db.cfg.dir → namesSpare p.1 = true → p.2 = none
  slice : SyncFails o → slices o.op = false
  flag : o.before.db.failed = true → asks o.before o.op = true

instance (o : Obs) : Decidable (SyncFails o) := inferInstanceAs (Decidable (∃ p ∈ o.calls, _))

theorem meets_iff (o : Obs) : Meets o ↔
    (∀ p ∈ o.calls, syncOf p.1 = some o.before.db.cfg.dir → namesSpare p.1 = true → p.2 = none) ∧
      (SyncFails o → slices o.op = false) ∧ (o.before.db.failed = true → asks o.before o.op = true) :=
  ⟨fun h => ⟨h.spare, h.slice, h.flag⟩, fun h => ⟨h.1, h.2.1, h.2.2⟩⟩

instance (o : Obs) : Decidable (Meets o) := decidable_of_iff' _ (meets_iff o)

theorem calls_of_append {o : Obs} {l : List (IoOp × Option Errno)} (h : o.wAfter.trace = l ++ o.wBefore.trace) :
    o.calls = l := by
  unfold Obs.calls World.calls
  rw [h, List.length_append, Nat.add_sub_cancel]
  exact List.take_left

theorem apiObs_stays (hs : Away s) (w : World) (op : Op) :
    SysStays (s, w) ((apiObs s w op).after, (apiObs s w op).wAfter) := by
  have h := wp_run _ w (apiStep_stays hs op w)
  exact ⟨h.cfg, h.away, h.failed, h.calls⟩

theorem apiObs_refuses (hf : s.db.failed = true) (ha : asks s op = true) :
    Refuses s w ((apiObs s w op).after, (apiObs s w op).ans) (apiObs s w op).wAfter := by
  have h := wp_run _ w (apiStep_refuses hf op ha w)
  exact ⟨h.answer, h.durable, h.calls⟩

theorem apiObs_fails (hs : Away s) (hm : Meets (apiObs s w op)) (hf : SyncFails (apiObs s w op)) :
    (apiObs s w op).after.db.failed = true := by
  obtain ⟨l, hl, hc⟩ := (apiObs_stays hs w op).calls
  obtain ⟨p, hp, ho, he⟩ := hf
  have hp' : p ∈ l := by rw [← calls_of_append hl]; exact hp
  refine hc p hp' ho ?_ he
  rw [← Bool.not_eq_true]
  exact fun hn => he (hm.spare p hp ho hn)

theorem apiRun_refuses : ∀ (ops : List Op) (s : Sys) (w : World), Away s → s.db.failed = true →
    (∀ o ∈ apiRun ops s w, Meets o) → ∀ o ∈ apiRun ops s w, Refuses o.before o.wBefore (o.after, o.ans) o.wAfter
  | [], _, _, _, _, _ => fun _ ho => by cases ho
  | op :: ops, s, w, hs, hf, hm => by
    intro o ho
    have hst := apiObs_stays hs w op
    rcases List.mem_cons.1 ho with h | ho
    · subst h
      exact apiObs_refuses hf ((hm _ (List.mem_cons_self ..)).flag hf)
    · exact apiRun_refuses ops _ _ hst.away (hst.failed hf) (fun o ho => hm o (List.mem_cons_of_mem _ ho)) o ho

theorem apiObs_tells (hs : Away s) (hm : Meets (apiObs s w op)) (hf : SyncFails (apiObs s w op)) :
    Tells s op (apiObs s w op).ans := by
  have hfail := apiObs_fails hs hm hf
  by_cases hbefore : s.db.failed = true
  · -- nothing is synced on a store that is failed
    have hasks : asks s op = true := hm.flag hbefore
    obtain ⟨l, hl, hc⟩ := (apiObs_refuses (w := w) hbefore hasks).calls
    obtain ⟨p, hp, ho, -⟩ := hf
    rw [calls_of_append hl] at hp
    rw [hc p hp] at ho
    cases ho
  · exact wp_run _ w (apiStep_tells op (hm.slice hf) w) (by simpa using hbefore) hfail

theorem apiRun_keepsWord : ∀ (ops : List Op) (s : Sys) (w : World), Away s → (∀ o ∈ apiRun ops s w, Meets o) →
    (∀ o ∈ apiRun ops s w, SyncFails o → Tells o.before o.op o.ans) ∧
      (apiRun ops s w).Pairwise (fun o o' => SyncFails o → Refuses o'.before o'.wBefore (o'.after, o'.ans) o'.wAfter)
  | [], _, _, _, _ => ⟨fun _ ho => (nomatch ho), List.Pairwise.nil⟩
  | op :: ops, s, w, hs, hm => by
    have hst := apiObs_stays hs w op
    have hm' : ∀ o ∈ apiRun ops _ _, Meets o := fun o ho => hm o (List.mem_cons_of_mem _ ho)
    obtain ⟨htells, hpair⟩ := apiRun_keepsWord ops _ _ hst.away hm'
    refine ⟨fun o ho => ?_, List.Pairwise.cons (fun o ho hf => ?_) hpair⟩
    · rcases List.mem_cons.1 ho with h | ho
      · subst h
        exact apiObs_tells hs (hm _ (List.mem_cons_self ..))
      · exact htells o ho
    · exact apiRun_refuses ops _ _ hst.away (apiObs_fails hs (hm _ (List.mem_cons_self ..)) hf) hm' o ho

/-- **A failed flush is never retried.**  In every run whose steps meet the condition, an operation in which one of the
store's own syncs fails answers so, and every later one answers FAILED and makes nothing durable. -/
theorem failed_flush_never_retried (ops : List Op) (db : Store) (w : World)
    (h : ∀ o ∈ apiRun ops (sysNew db) w, Meets o) :
    (∀ o ∈ apiRun ops (sysNew db) w, SyncFails o → Tells o.before o.op o.ans) ∧
      (apiRun ops (sysNew db) w).Pairwise (fun o o' => SyncFails o →
        Refuses o'.before o'.wBefore (o'.after, o'.ans) o'.wAfter) :=
  apiRun_keepsWord ops (sysNew db) w (fun _ _ hb => by cases hb) h

def created (o : Options) (faults : List Fault) : Store × World :=
  let r := run exec (openStore 0 o 1 1 9) ⟨.empty, [], []⟩
  (r.1.1, { r.2 with faults := faults })

/-- A commit whose log's sync fails, and the operations after it. -/
theorem failed_flush_never_retried_commit :
    let x := created ⟨0, 1, 0, 0, 0, true⟩ (List.replicate 3 .none ++ [⟨some .eio, [], []⟩])
    let ops : List Op := [.beginWrite 0, .treeCreate 0 [1], .commit 0 true, .beginWrite 1, .sync]
    let r := apiRun ops (sysNew x.1) x.2
    (∃ o ∈ r, SyncFails o) ∧ (∀ o ∈ r, SyncFails o → Tells o.before o.op o.ans) ∧
      r.Pairwise (fun o o' => SyncFails o → Refuses o'.before o'.wBefore (o'.after, o'.ans) o'.wAfter) :=
  ⟨by decide +kernel, failed_flush_never_retried _ _ _ (by decide +kernel)⟩

/-- A commit in which the flush of the directory that names a spare log fails, and a transaction after it. -/
def spareRun : List Obs :=
  let x := created ⟨0, 1, 0, 0, 0, true⟩ (List.replicate 8 .none ++ [⟨some .eio, [], []⟩])
  apiRun [.beginWrite 0, .treeCreate 0 [1], .commit 0 true, .beginWrite 1, .treeCreate 1 [2], .commit 1 true]
    (sysNew x.1) x.2

theorem spareRun_answers : spareRun.map (fun o => (decide (SyncFails o), o.ans.1)) =
    [(false, some .ok), (false, some .ok), (true, some .io), (false, some .ok), (false, some .ok),
      (false, some .ok)] := by
  decide +kernel

/-- **The flush that names a spare log is forgotten.**  It fails in a commit, and the next transaction begins, and
commits on the strength of its being tried again. -/
theorem spare_flush_retried : ¬ ∀ (ops : List Op) (db : Store) (w : World),
    (∀ o ∈ apiRun ops (sysNew db) w, SyncFails o → Tells o.before o.op o.ans) ∧
      (apiRun ops (sysNew db) w).Pairwise
        (fun o o' => SyncFails o → Refuses o'.before o'.wBefore (o'.after, o'.ans) o'.wAfter) := by
  intro h
  have hrun : spareRun.Pairwise
      (fun o o' => SyncFails o → Refuses o'.before o'.wBefore (o'.after, o'.ans) o'.wAfter) := (h _ _ _).2
  have hans : (spareRun.map (fun o => (decide (SyncFails o), o.ans.1))).Pairwise
      (fun a b => a.1 = true → b.2 = none ∨ b.2 = some .failed) :=
    List.pairwise_map.2 (hrun.imp (fun h ha => (h (of_decide_eq_true ha)).answer))
  rw [spareRun_answers] at hans
  revert hans
  decide

end Lsm
end Gbasic
