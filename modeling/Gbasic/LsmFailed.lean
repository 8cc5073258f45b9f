import Gbasic.LsmRun
import Gbasic.LsmKept
/-!
# LsmFailed — what a failed sync leaves

`Stays` relates two moments of an open store: the configuration is the same, a store that is failed stays failed, and it
is failed once a sync of its own, other than the one that names a spare log, has answered an error.  Every function of
the store moves so (`stay_*`), whatever its calls answer.
-/
namespace Gbasic
namespace Lsm

open Prog

def namesSpare : IoOp → Bool
  | .syncDir _ .spare => true
  | _ => false

structure Stays (a b : Store × World) : Prop where
  cfg : b.1.cfg = a.1.cfg
  failed : a.1.failed = true → b.1.failed = true
  calls : ∃ l, b.2.trace = l ++ a.2.trace ∧ ∀ p ∈ l, syncOf p.1 = none ∨
    syncOf p.1 = some a.1.cfg.dir ∧ (namesSpare p.1 = false → p.2 ≠ none → b.1.failed = true)

theorem Stays.dir {a b : Store × World} (h : Stays a b) : b.1.cfg.dir = a.1.cfg.dir := congrArg (·.dir) h.cfg

theorem Stays.trans (a b c : Store × World) (h : Stays a b) (h' : Stays b c) : Stays a c where
  cfg := h'.cfg.trans h.cfg
  failed hf := h'.failed (h.failed hf)
  calls := by
    obtain ⟨l, hl, hc⟩ := h.calls
    obtain ⟨l', hl', hc'⟩ := h'.calls
    refine ⟨l' ++ l, by rw [hl', hl, List.append_assoc], fun p hp => ?_⟩
    rcases List.mem_append.1 hp with hp | hp
    · rw [← h.dir]
      exact hc' p hp
    · exact (hc p hp).imp_right (fun ⟨ho, hf⟩ => ⟨ho, fun hs he => h'.failed (hf hs he)⟩)

theorem Stays.same {db db' : Store} (w : World) (hc : db'.cfg = db.cfg)
    (hf : db.failed = true → db'.failed = true) : Stays (db, w) (db', w) :=
  ⟨hc, hf, [], rfl, fun _ hp => by cases hp⟩

abbrev Stay {α : Type} (db : Store) (p : M α) (out : α → Store) : Prop := Moves exec Stays db p out

namespace Stay

variable {α β : Type} {db : Store}

variable {out : α → Store} {out' : β → Store}

theorem pure {a : α} (hc : (out a).cfg = db.cfg) (hf : db.failed = true → (out a).failed = true) :
    Stay db (Pure.pure a : M α) out :=
  Moves.pure (fun w => Stays.same w hc hf)

theorem bind {p : M α} {f : α → M β} (hp : Stay db p out) (hf : ∀ a, Stay (out a) (f a) out') :
    Stay db (p >>= f) out' :=
  Moves.bind Stays.trans hp hf

theorem step {γ : Type} {p : M (Store × γ)} {f : Store × γ → M β} (hp : Stay db p (·.1))
    (hf : ∀ db x, Stay db (f (db, x)) out') : Stay db (p >>= f) out' :=
  Moves.bind Stays.trans hp (fun a => hf a.1 a.2)

theorem thru {p : M Store} {f : Store → M β} (hp : Stay db p id) (hf : ∀ db, Stay db (f db) out') :
    Stay db (p >>= f) out' :=
  Moves.bind Stays.trans hp hf

theorem ite {c : Prop} [Decidable c] {p q : M α} (hp : Stay db p out) (hq : Stay db q out) :
    Stay db (if c then p else q) out :=
  Moves.ite (fun _ => hp) (fun _ => hq)

theorem «from» (db' : Store) {p : M α} (hp : Stay db' p out) (hc : db'.cfg = db.cfg)
    (hf : db.failed = true → db'.failed = true) : Stay db p out :=
  Moves.from Stays.trans (fun w => Stays.same w hc hf) hp

end Stay

theorem stay_io {db : Store} {o : IoOp}
    (h : syncOf o = none ∨ syncOf o = some db.cfg.dir ∧ namesSpare o = true) : Stay db (io o) (fun _ => db) := by
  intro w
  refine ⟨trivial, rfl, fun hf => hf, [(o, (exec w o).1.err)], trace_exec w o, fun p hp => ?_⟩
  rw [List.mem_singleton.1 hp]
  exact h.imp_right (fun ⟨ho, hs⟩ => ⟨ho, fun hn => by rw [hs] at hn; cases hn⟩)

theorem stay_call {db : Store} {o : IoOp}
    (h : syncOf o = none ∨ syncOf o = some db.cfg.dir ∧ namesSpare o = true) : Stay db (call o) (fun _ => db) :=
  .bind (stay_io h) (fun _ => .pure rfl id)

theorem stay_fails {α : Type} {db : Store} {o : IoOp} {bad : Status → α} {good : α} {out : α → Store}
    (ho : syncOf o = some db.cfg.dir) (hb : ∀ rc, out (bad rc) = { db with failed := true }) (hg : out good = db) :
    Stay db (call o >>= fun rc => if rc ≠ .ok then pure (bad rc) else pure good) out := by
  intro w
  simp only [call, io, wp_bind, wp_request, wp_pure]
  refine ⟨trivial, ?_⟩
  split
  · rw [wp_pure, hb]
    refine ⟨rfl, fun _ => rfl, [_], trace_exec w _, fun p hp => ?_⟩
    rw [List.mem_singleton.1 hp]
    exact Or.inr ⟨ho, fun _ _ => rfl⟩
  · rename_i h
    rw [wp_pure, hg]
    refine ⟨rfl, id, [_], trace_exec w _, fun p hp => ?_⟩
    rw [List.mem_singleton.1 hp]
    exact Or.inr ⟨ho, fun _ he => absurd ((ioerr_eq_ok _).1 (not_not.1 h)) he⟩

theorem stay_flushFile {db : Store} {n : Name} (h : n.dir = db.cfg.dir) : Stay db (flushFile db n) (·.1) :=
  stay_fails (congrArg some h) (fun _ => rfl) rfl

theorem stay_syncDirFlush {db : Store} {site : Site} (h : syncOf (.syncDir db.cfg.dir site) = some db.cfg.dir) :
    Stay db (syncDirFlush db site) (·.1) := stay_fails h (fun _ => rfl) rfl

/-! ## Writing a sorted file -/

theorem stay_bldWrite (db : Store) (b : Builder) (p : Part) : Stay db (bldWrite db b p) (fun _ => db) :=
  .ite (.pure rfl id) (.bind (stay_call (.inl rfl)) (fun _ => .ite (.pure rfl id) (.pure rfl id)))

theorem stay_bldOpen (db : Store) : Stay db (bldOpen db) (·.1) := by
  refine Stay.from { db with nextFile := db.nextFile + 1 } ?_ rfl id
  refine .bind (stay_call (.inl rfl)) (fun _ => .ite (.pure rfl id) ?_)
  refine .bind (stay_call (.inl rfl)) (fun _ => .ite (.bind (stay_call (.inl rfl)) (fun _ => .pure rfl id)) ?_)
  exact .bind (stay_bldWrite _ _ _) (fun _ => .pure rfl id)

theorem stay_bldFinishBlock (db : Store) (b : Builder) : Stay db (bldFinishBlock db b) (fun _ => db) :=
  .ite (.pure rfl id) (.bind (stay_bldWrite _ _ _) (fun _ => .pure rfl id))

theorem stay_bldBlobOpen (db : Store) (b : Builder) : Stay db (bldBlobOpen db b) (·.1) := by
  refine .ite (.pure rfl id) (Stay.from { db with nextFile := db.nextFile + 1 } ?_ rfl id)
  refine .bind (stay_call (.inl rfl)) (fun _ => .ite (.bind (stay_call (.inl rfl)) (fun _ => .pure rfl id)) ?_)
  refine .bind (stay_call (.inl rfl)) (fun _ => .ite (.bind (stay_call (.inl rfl)) (fun _ => .pure rfl id)) ?_)
  exact .bind (stay_call (.inl rfl)) (fun _ => .ite (.pure rfl id) (.pure rfl id))

theorem stay_bldBlob (db : Store) (b : Builder) (v : Val) : Stay db (bldBlob db b v) (·.1) := by
  refine .bind (stay_bldBlobOpen db b) (fun ⟨db, b, rc⟩ => .ite (.pure rfl id) ?_)
  refine .bind (stay_call (.inl rfl)) (fun _ => .ite (.pure rfl id) ?_)
  exact .bind (stay_call (.inl rfl)) (fun _ => .ite (.pure rfl id) (.pure rfl id))

theorem stay_bldPut (db : Store) (b : Builder) (e : Ent) : Stay db (bldPut db b e) (fun _ => db) :=
  .ite (stay_bldFinishBlock _ _) (.pure rfl id)

theorem stay_bldAdd (db : Store) (b : Builder) (e : Ent) : Stay db (bldAdd db b e) (·.1) := by
  refine .ite (.pure rfl id) ?_
  cases he : e.val with
  | put v =>
    refine .ite (.bind (stay_bldBlob db b v) (fun ⟨db, b, rc, p⟩ => .ite (.pure rfl id) ?_)) ?_
    · exact .bind (stay_bldPut _ _ _) (fun _ => .pure rfl id)
    · exact .bind (stay_bldPut _ _ _) (fun _ => .pure rfl id)
  | blob | del => exact .bind (stay_bldPut _ _ _) (fun _ => .pure rfl id)

theorem stay_bldSync (db : Store) (b : Builder) : Stay db (bldSync db b) (·.1) := by
  refine .ite (.pure rfl id) (.ite ?_ (stay_flushFile rfl))
  exact .bind (stay_flushFile rfl) (fun ⟨db, rc⟩ => .ite (.pure rfl id) (stay_flushFile rfl))

theorem stay_bldClose (db : Store) (b : Builder) : Stay db (bldClose db b) (·.1) := by
  refine .bind (stay_bldFinishBlock db b) (fun b => .bind (stay_bldWrite _ _ _) (fun b' => ?_))
  refine .bind (stay_bldWrite _ _ _) (fun b => .bind (stay_bldWrite _ _ _) (fun b'' => ?_))
  refine .bind (stay_bldSync _ _) (fun ⟨db, rc⟩ => .ite (.pure rfl id) (.bind (stay_call (.inl rfl)) (fun _ => ?_)))
  exact .ite (.bind (stay_call (.inl rfl)) (fun _ => .pure rfl id)) (.pure rfl id)

/-! ## Letting go, and the manifest -/

theorem stay_blobUnref (db : Store) (num : Nat) (del : Bool) : Stay db (blobUnref db num del) (fun _ => db) :=
  .ite (.pure rfl id) (.ite (.bind (stay_call (.inl rfl)) (fun _ => .pure rfl id)) (.pure rfl id))

theorem stay_blobsUnref (db : Store) (del : Bool) : ∀ l, Stay db (blobsUnref db del l) (fun _ => db)
  | [] => .pure rfl id
  | num :: l => .bind (stay_blobUnref db num del) (fun _ => stay_blobsUnref db del l)

theorem stay_fileFree (db : Store) (m : FileMeta) : Stay db (fileFree db m) id :=
  Stay.from _ (.bind (stay_blobsUnref _ _ _) (fun _ => .pure rfl id)) rfl id

theorem stay_filesFree : ∀ (l : List FileMeta) (db : Store), Stay db (filesFree db l) id
  | [], _ => .pure rfl id
  | m :: l, db => .bind (stay_fileFree db m) (fun db => stay_filesFree l db)

theorem stay_fileDropRef (db : Store) (m : FileMeta) : Stay db (fileDropRef db m) id :=
  .ite (.bind (stay_call (.inl rfl)) (fun _ => stay_fileFree db m)) (stay_fileFree db m)

theorem stay_filesDrop : ∀ (l : List FileMeta) (db : Store), Stay db (filesDrop db l) id
  | [], _ => .pure rfl id
  | m :: l, db => .ite (stay_filesDrop l db) (.bind (stay_fileDropRef db m) (fun db => stay_filesDrop l db))

theorem stay_versionUnref (db : Store) (v : Version) : Stay db (versionUnref db v) id :=
  Stay.from { db with refs.held := db.refs.held.eraseP (fun x => x.vid = v.vid) } (stay_filesDrop _ _) rfl id

theorem stay_manifestTmp (db : Store) : Stay db (manifestTmp db) (·.1) := by
  refine .bind (stay_call (.inl rfl)) (fun _ => .bind (stay_call (.inl rfl)) (fun _ => .ite (.pure rfl id) ?_))
  exact .bind (stay_call (.inl rfl)) (fun _ => .ite (.pure rfl id) (stay_flushFile rfl))

theorem stay_manifestPublish (db : Store) : Stay db (manifestPublish db) (·.1) := by
  refine .bind (stay_manifestTmp db) (fun ⟨db, rc⟩ => .ite (.pure rfl id) ?_)
  refine .bind (stay_syncDirFlush rfl) (fun ⟨db, rc⟩ => .ite (.pure rfl id) ?_)
  exact .bind (stay_call (.inl rfl)) (fun _ => .ite (.pure rfl id) (stay_syncDirFlush rfl))

theorem stay_manifestWrite (db : Store) : Stay db (manifestWrite db) (·.1) := by
  refine .bind (stay_manifestPublish db) (fun ⟨db, rc⟩ => .ite ?_ (.pure rfl id))
  exact .bind (stay_call (.inl rfl)) (fun _ => .pure rfl id)

/-! ## Compaction -/

theorem stay_reads (db : Store) : Stay db (reads db) (fun _ => db) := .bind (stay_io (.inl rfl)) (fun _ => .pure rfl id)

theorem stay_install (db : Store) (nv : Version) (gone : List FileMeta) : Stay db (install db nv gone) (·.1) := by
  refine Stay.from { db with refs.obsolete := gone.map (·.num) ++ db.refs.obsolete, cur := nv } ?_ rfl id
  refine .bind (stay_manifestWrite _) (fun ⟨db', rc⟩ => .ite ?_ ?_)
  · exact Stay.from _ (.thru (stay_filesDrop _ _) (fun _ => .pure rfl id)) rfl id
  · exact Stay.from _ (.thru (stay_versionUnref _ _) (fun _ => .pure rfl id)) rfl id

theorem stay_removePending (db : Store) : ∀ l, Stay db (removePending db l) (fun _ => db)
  | [] => .pure rfl id
  | _ :: l => .bind (stay_call (.inl rfl)) (fun _ => .bind (stay_call (.inl rfl)) (fun _ => stay_removePending db l))

theorem stay_compOuts (db : Store) (c : Comp) : Stay db (compOuts db c) (·.1) := by
  unfold compOuts
  cases c.b with
  | none => exact .pure rfl id
  | some b => exact .step (stay_bldClose db b) (fun _ _ => .pure rfl id)

theorem stay_compFree (db : Store) (c : Comp) (abandon : Bool) : Stay db (compFree db c abandon) id := by
  refine .step (stay_compOuts db c) (fun db outs => .ite ?_ (.pure rfl id))
  exact .thru (stay_filesFree _ _) (fun db => .bind (stay_removePending db _) (fun _ => .pure rfl id))

theorem stay_compOpenOutput (db : Store) (c : Comp) : Stay db (compOpenOutput db c) (·.1) :=
  .bind (stay_bldOpen db) (fun ⟨_, _⟩ => .ite (.pure rfl id) (.pure rfl id))

theorem stay_compCloseOutput (db : Store) (c : Comp) (b : Builder) : Stay db (compCloseOutput db c b) (·.1) :=
  .bind (stay_bldClose db b) (fun ⟨_, _, _⟩ => .pure rfl id)

theorem stay_compInstall (db : Store) (c : Comp) : Stay db (compInstall db c) (·.1) := by
  refine Stay.from { db with refs.nextVid := db.refs.nextVid + 1 } ?_ rfl id
  exact .bind (stay_install _ _ _) (fun ⟨db, rc⟩ => .bind (stay_compFree _ _ _) (fun _ => .pure rfl id))

theorem stay_compFull (db : Store) (c : Comp) : Stay db (compFull db c) (·.1) := by
  unfold compFull
  cases c.b with
  | none => exact .pure rfl id
  | some b => exact .ite (stay_compCloseOutput db c b) (.pure rfl id)

theorem stay_compNewKey (db : Store) (c : Comp) (k : IKey) : Stay db (compNewKey db c k) (·.1) :=
  .ite (.pure rfl id) (.step (stay_compFull db c) (fun _ ⟨_, _⟩ => .ite (.pure rfl id) (.pure rfl id)))

theorem stay_compOutput (db : Store) (c : Comp) : Stay db (compOutput db c) (·.1) := by
  unfold compOutput
  cases c.b with
  | none => exact stay_compOpenOutput db c
  | some b => exact .pure rfl id

theorem stay_compEmit (rd : Rd) (db : Store) (c : Comp) (e : Ent) : Stay db (compEmit rd db c e) (·.1) := by
  refine .step (stay_compOutput db c) (fun db ⟨c, rc⟩ => .ite (.pure rfl id) (.ite (.pure rfl id) ?_))
  dsimp only
  cases c.b with
  | none => exact .pure rfl id
  | some b => exact .step (stay_bldAdd _ _ _) (fun _ _ => .pure rfl id)

theorem stay_compPass (rd : Rd) (db : Store) (c : Comp) (e : Ent) (keep : Bool) :
    Stay db (compPass rd db c e keep) (·.1) := .ite (stay_compEmit rd db c e) (.pure rfl id)

theorem stay_compEntry (rd : Rd) (db : Store) (c : Comp) (i : Nat) (e : Ent) :
    Stay db (compEntry rd db c i e) (·.1) := by
  refine .step (stay_compNewKey db c _) (fun db ⟨c, rc⟩ => .ite (.pure rfl id) ?_)
  exact .step (stay_compPass rd db _ e _) (fun _ ⟨_, _, _⟩ => .ite (.pure rfl id) (.pure rfl id))

theorem stay_compLoop (rd : Rd) (budget : Option Nat) : ∀ (f : Nat) (db : Store) (c : Comp) (work : Nat),
    Stay db (compLoop rd budget f db c work) (·.1)
  | 0, _, _, _ => .pure rfl id
  | f + 1, db, c, work => by
    unfold compLoop
    refine .ite (.pure rfl id) ?_
    cases mergeMin noSkip c.src 0 none with
    | none => exact .pure rfl id
    | some x =>
      exact .bind (stay_compEntry rd db c _ _) (fun ⟨db, c, n, rc⟩ =>
        .ite (.pure rfl id) (stay_compLoop rd budget f db c _))

theorem stay_compStepRun (db : Store) (c : Comp) (budget : Option Nat) : Stay db (compStepRun db c budget) (·.1) := by
  unfold compStepRun
  refine .bind (stay_reads db) (fun rd => ?_)
  cases c.src.reverse.find? (fun s => s.rc ≠ .ok) with
  | some s => exact .bind (stay_compFree db c true) (fun _ => .pure rfl id)
  | none =>
    refine .bind (stay_compLoop rd budget _ db c 0) (fun ⟨db, c, work, rc⟩ => .ite ?_ (.ite (.pure rfl id) ?_))
    · exact .bind (stay_compFree db c true) (fun _ => .pure rfl id)
    · dsimp only
      cases c.b with
      | none => exact .bind (stay_compInstall db c) (fun ⟨_, _⟩ => .pure rfl id)
      | some b =>
        refine .bind (stay_compCloseOutput db c b) (fun ⟨db, c, rc⟩ => .ite ?_ ?_)
        · exact .bind (stay_compFree db c true) (fun _ => .pure rfl id)
        · exact .bind (stay_compInstall db c) (fun ⟨_, _⟩ => .pure rfl id)

theorem stay_blobTotal (db : Store) (num : Nat) : Stay db (blobTotal db num) (fun _ => db) :=
  .bind (stay_io (.inl rfl)) (fun _ => .pure rfl id)

theorem stay_gcFold (db : Store) : ∀ (l : List Nat) (acc : List Nat × Nat × Nat × Nat),
    Stay db (gcFold db l acc) (fun _ => db)
  | [], _ => .pure rfl id
  | num :: l, (out, deadest, bd, bt) => by
    refine .bind (stay_blobTotal db num) (fun tot => ?_)
    exact .ite (stay_gcFold db l _) (.ite (stay_gcFold db l _) (stay_gcFold db l _))

theorem stay_gcCollect (db : Store) : Stay db (gcCollect db) (fun _ => db) :=
  .bind (stay_gcFold db _ _) (fun ⟨_, _, _, _⟩ => .pure rfl id)

theorem stay_compMake (db : Store) (level next : Nat) (inputs : List FileMeta) (firstBelow : Nat) (forGc : Bool) :
    Stay db (compMake db level next inputs firstBelow forGc) id :=
  .bind (stay_gcCollect db) (fun ⟨_, _⟩ => .bind (stay_reads db) (fun _ => .pure rfl id))

theorem stay_l0MoveAlone (db : Store) : Stay db (l0MoveAlone db) (·.1) :=
  Stay.from { db with refs.nextVid := db.refs.nextVid + 1 } (stay_install _ _ _) rfl id

theorem stay_compInto (db : Store) (level : Nat) (upper : List FileMeta) (forGc : Bool) :
    Stay db (compInto db level upper forGc) (·.1) := by
  refine .ite (Stay.from { db with refs.nextVid := db.refs.nextVid + 1 } (stay_install _ _ _) rfl id) ?_
  exact .bind (stay_compMake db _ _ _ _ _) (fun _ => .pure rfl id)

theorem stay_compStart (db : Store) (level : Nat) (forGc : Bool) : Stay db (compStart db level forGc) (·.1) :=
  .ite (.ite (stay_compInto db _ _ _) (stay_l0MoveAlone db))
    (Stay.from _ (stay_compInto _ _ _ _) rfl id)

theorem stay_gcStart (db : Store) : Stay db (gcStart db) (·.1) := by
  unfold gcStart
  refine .ite (.pure rfl id) (.bind (stay_gcCollect db) (fun ⟨_, deadest⟩ => .ite (.pure rfl id) ?_))
  cases gcPick db.cur deadest with
  | none => exact stay_compStart db _ _
  | some x => exact .bind (stay_compMake db _ _ _ _ _) (fun _ => .pure rfl id)

theorem stay_sweepDead (db : Store) : Stay db (sweepDead db) (·.1) := by
  let sweep := db.dead.any (fun d => decide (horizon db < d.death))
  refine .ite (.pure rfl id) (Stay.from { db with pace.sweep := sweep } (.ite (.pure rfl id) ?_) rfl id)
  refine Stay.from { db with pace.sweep := sweep, refs.nextVid := db.refs.nextVid + 1 } ?_ rfl id
  exact .bind (stay_install _ _ _) (fun ⟨_, _⟩ => .ite (.pure rfl id) (.pure rfl id))

theorem stay_compBegin (db : Store) (budget : Nat) : Stay db (compBegin db budget) (·.1) := by
  unfold compBegin
  refine .ite (.pure rfl id) ?_
  cases compWanted db with
  | none => exact .ite (.pure rfl id) (.bind (stay_gcStart db) (fun ⟨_, _⟩ => .pure rfl id))
  | some l => exact .bind (stay_compStart db l false) (fun ⟨_, _⟩ => .pure rfl id)

theorem stay_compTurns (wrote : Nat) : ∀ (guard : Nat) (db : Store) (budget : Nat),
    Stay db (compTurns wrote guard db budget) (·.1)
  | 0, _, _ => .pure rfl id
  | guard + 1, db, budget => by
    unfold compTurns
    refine .bind (stay_compBegin db budget) (fun ⟨db, rc, go⟩ => .ite (.pure rfl id) (.ite (.pure rfl id) ?_))
    dsimp only
    cases db.comp with
    | none => exact stay_compTurns wrote guard db budget
    | some c =>
      refine .ite (.pure rfl id) (.ite (.bind (stay_compStepRun db c _) (fun ⟨_, _, _⟩ => .pure rfl id)) ?_)
      exact .bind (stay_compStepRun db c _) (fun ⟨db, used, rc⟩ => .ite (.pure rfl id) (.ite (.pure rfl id)
        (stay_compTurns wrote guard db _)))

theorem stay_maybeCompact (db : Store) (wrote : Nat) : Stay db (maybeCompact db wrote) (·.1) :=
  .step (.ite (stay_sweepDead db) (.pure rfl id)) (fun db _ => .ite (.pure rfl id) (stay_compTurns wrote 64 db _))

/-! ## The flush and the spare log -/

theorem stay_zeroFill (db : Store) (n : Name) : ∀ f off stop, Stay db (zeroFill n f off stop) (fun _ => db)
  | 0, _, _ => .pure rfl id
  | f + 1, _, _ => .ite (.pure rfl id) (.bind (stay_call (.inl rfl))
      (fun _ => .ite (.pure rfl id) (stay_zeroFill db n f _ _)))

theorem stay_spareOpen (db : Store) : Stay db (spareOpen db) (·.1) := by
  refine .ite (.pure rfl id) (.bind (stay_call (.inl rfl)) (fun _ => .ite (.pure rfl id) ?_))
  exact .bind (stay_call (.inl rfl)) (fun _ => .ite (.pure rfl id) (.pure rfl id))

theorem stay_spareZeros (size : Nat) (budget : Option Nat) : ∀ (f : Nat) (db : Store) (spent : Nat),
    Stay db (spareZeros size budget f db spent) (·.1)
  | 0, _, _ => .pure rfl id
  | f + 1, db, spent => by
    refine .ite (.pure rfl id) (.bind (stay_call (.inl rfl)) (fun _ => .ite (.pure rfl id) ?_))
    exact Stay.from _ (stay_spareZeros size budget f _ _) rfl id

theorem stay_spareFill (db : Store) (budget : Option Nat) : Stay db (spareFill db budget) (·.1) := by
  refine Stay.from { db with spare.credit := 0 } ?_ rfl id
  refine .bind (stay_spareOpen _) (fun ⟨db, rc⟩ => .ite (.pure rfl id) ?_)
  refine .bind (stay_spareZeros _ _ _ _ _) (fun ⟨db, spent, rc⟩ => .ite (.pure rfl id) ?_)
  refine .step (.ite (stay_flushFile rfl) (.pure rfl id)) (fun db rc => .ite (.pure rfl id) (.ite (.pure rfl id) ?_))
  exact .bind (stay_call (.inr ⟨rfl, rfl⟩)) (fun _ => .ite (.pure rfl id) (.pure rfl id))

theorem stay_spareStep (db : Store) (budget : Option Nat) : Stay db (spareStep db budget) (·.1) := by
  unfold spareStep
  refine .ite (.pure rfl id) ?_
  cases budget with
  | none => exact stay_spareFill db none
  | some n =>
    exact Stay.from { db with spare.credit := db.spare.credit + n }
      (.ite (.pure rfl id) (stay_spareFill _ _)) rfl id

theorem stay_flushDropFile (db : Store) (f : Flush) : Stay db (flushDropFile db f) id := by
  unfold flushDropFile
  cases f.b with
  | none => exact .pure rfl id
  | some b =>
    refine .step (stay_bldClose db b) (fun db ⟨fm, _⟩ => ?_)
    exact Stay.from { db with refs.obsolete := fm.toList.map (·.num) ++ db.refs.obsolete } (stay_filesFree _ _) rfl id

theorem stay_flushAbandon (db : Store) (f : Flush) : Stay db (flushAbandon db f) id :=
  .thru (stay_flushDropFile db f) (fun db => .bind (stay_removePending db _) (fun _ => .pure rfl id))

theorem stay_freezeSync (db : Store) : Stay db (freezeSync db) (·.1) :=
  .ite (.pure rfl id) (.bind (stay_flushFile rfl) (fun ⟨_, _⟩ => .ite (.pure rfl id) (.pure rfl id)))

theorem stay_freeze (db : Store) : Stay db (freeze db) (·.1) := by
  refine .ite (.pure rfl id) (.bind (stay_spareStep db none) (fun ⟨db, rc⟩ => .ite (.pure rfl id) ?_))
  refine .bind (stay_freezeSync db) (fun ⟨db, rc⟩ => .ite (.pure rfl id) ?_)
  refine Stay.from { (freezeVersion db).1 with
    cur := (freezeVersion db).2, refs.held := (freezeVersion db).2 :: (freezeVersion db).1.refs.held } ?_ rfl id
  exact .bind (stay_versionUnref _ _) (fun _ => .pure rfl id)

theorem stay_recycleLog (db : Store) (f : Flush) : Stay db (recycleLog db f) (·.1) := by
  refine .ite (.pure rfl id) (.bind (stay_call (.inl rfl)) (fun _ => .ite (.pure rfl id) ?_))
  refine .bind (stay_call (.inl rfl)) (fun _ => .ite (.pure rfl id)
    (.bind (stay_io (.inl rfl)) (fun _ => .ite (.pure rfl id) ?_)))
  exact .bind (stay_call (.inl rfl)) (fun _ => .pure rfl id)

theorem stay_removeLogs (db : Store) : ∀ l, Stay db (removeLogs db l) (fun _ => db)
  | [] => .pure rfl id
  | _ :: l => .bind (stay_call (.inl rfl)) (fun _ => stay_removeLogs db l)

theorem stay_flushName (db : Store) (f : Flush) (fm : Option FileMeta) : Stay db (flushName db f fm) (·.1) := by
  refine Stay.from { db with
    refs.nextVid := db.refs.nextVid + 1, log.first := f.last + 1,
    cur := flushVersion (versionCopy db db.cur).2 fm } ?_ rfl id
  refine .bind (stay_manifestWrite _) (fun ⟨db', rc⟩ => .ite ?_ ?_)
  · exact Stay.from _ (.thru (stay_filesDrop _ _) (fun _ => .thru (stay_flushAbandon _ _)
      (fun _ => .pure rfl id))) rfl id
  · exact Stay.from _ (.thru (stay_versionUnref _ _) (fun _ => .pure rfl id)) rfl id

theorem stay_flushClose (db : Store) (f : Flush) : Stay db (flushClose db f) (·.1) := by
  unfold flushClose
  cases f.b with
  | none => exact .pure rfl id
  | some b => exact stay_bldClose db b

theorem stay_flushInstall (db : Store) (f : Flush) : Stay db (flushInstall db f) (·.1) := by
  refine .step (stay_flushClose db f) (fun db ⟨fm, rc⟩ =>
    .ite (.thru (stay_flushAbandon _ _) (fun _ => .pure rfl id)) ?_)
  refine .step (stay_flushName db _ fm) (fun db rc => .ite (.pure rfl id)
    (.step (stay_recycleLog db _) (fun db keep => ?_)))
  exact .bind (stay_removeLogs db _) (fun _ => .pure rfl id)

theorem stay_flushOutput (db : Store) (f : Flush) : Stay db (flushOutput db f) (·.1) := by
  unfold flushOutput
  cases f.b with
  | none => exact .step (stay_bldOpen db) (fun _ _ => .ite (.pure rfl id) (.pure rfl id))
  | some b => exact .pure rfl id

theorem stay_flushEmit (db : Store) (f : Flush) (e : Ent) : Stay db (flushEmit db f e) (·.1) := by
  refine .step (stay_flushOutput db f) (fun db ⟨f, rc⟩ => .ite (.pure rfl id) ?_)
  dsimp only
  cases f.b with
  | none => exact .pure rfl id
  | some b => exact .step (stay_bldAdd _ _ _) (fun _ _ => .pure rfl id)

theorem stay_flushLoop (budget : Option Nat) : ∀ (l : List Ent) (db : Store) (g : Flush) (spent : Nat),
    Stay db (flushLoop budget l db g spent) (·.1)
  | [], _, _, _ => .pure rfl id
  | e :: l, db, g, spent => by
    refine .ite (.pure rfl id) (.ite (stay_flushLoop budget l db _ _) ?_)
    exact .bind (stay_flushEmit db _ e) (fun ⟨db, g, rc⟩ => .ite (.pure rfl id) (stay_flushLoop budget l db g _))

theorem stay_flushStep (db : Store) (budget : Option Nat) : Stay db (flushStep db budget) (·.1) := by
  unfold flushStep
  cases db.fl with
  | none => exact .pure rfl id
  | some f =>
    refine .bind (stay_flushLoop budget _ db f 0) (fun ⟨db, f, rc⟩ =>
      .ite ?_ (.ite (.pure rfl id) (stay_flushInstall db f)))
    exact .bind (stay_flushAbandon db f) (fun _ => .pure rfl id)

theorem stay_flushMemtable (db : Store) : Stay db (flushMemtable db) (·.1) := by
  refine .step (stay_flushStep db none) (fun db rc => .ite (.pure rfl id) ?_)
  refine .step (.ite (stay_freeze db) (.pure rfl id)) (fun db rc => .ite (.pure rfl id) ?_)
  exact .step (stay_flushStep db none) (fun db rc => .ite (.pure rfl id) (stay_maybeCompact db 0))

/-! ## Transactions -/

theorem stay_runAdd (db : Store) (t : Txn) (b : Builder) : Stay db (runAdd db t b) (·.1) := by
  unfold runAdd
  refine .bind (stay_bldClose db b) (fun ⟨db, fm, rc⟩ => ?_)
  dsimp only
  cases fm <;> exact .pure rfl id

theorem stay_spillTurn (db : Store) (t : Txn) (cur : Option (Builder × Nat)) (tree : Nat) :
    Stay db (spillTurn db t cur tree) (·.1) := by
  unfold spillTurn
  cases cur with
  | none => exact .pure rfl id
  | some x => exact .ite (.pure rfl id) (.step (stay_runAdd db t _) (fun _ _ => .pure rfl id))

theorem stay_spillOutput (db : Store) (cur : Option (Builder × Nat)) (tree : Nat) :
    Stay db (spillOutput db cur tree) (·.1) := by
  unfold spillOutput
  cases cur with
  | none => exact .step (stay_bldOpen db) (fun _ _ => .pure rfl id)
  | some x => exact .pure rfl id

theorem stay_spillLoop : ∀ (l : List Ent) (db : Store) (t : Txn) (cur : Option (Builder × Nat)),
    Stay db (spillLoop l db t cur) (·.1)
  | [], _, _, _ => .pure rfl id
  | e :: l, db, t, cur => by
    refine .step (stay_spillTurn db t cur _) (fun db ⟨t, cur, rc⟩ => .ite (.pure rfl id) ?_)
    refine .step (stay_spillOutput db cur _) (fun db ⟨b, tree⟩ => .ite (.pure rfl id) ?_)
    exact .step (stay_bldAdd _ _ _) (fun db b => .ite (.pure rfl id) (stay_spillLoop l db t _))

theorem stay_spillLast (db : Store) (t : Txn) (cur : Option Builder) (rc : Status) :
    Stay db (spillLast db t cur rc) (·.1) := by
  unfold spillLast
  cases cur with
  | none => exact .pure rfl id
  | some b =>
    refine .ite (stay_runAdd db t b) (.step (stay_bldClose db b) (fun db ⟨fm, _⟩ => ?_))
    exact .thru (stay_filesFree _ _) (fun _ => .pure rfl id)

theorem stay_spillBuffer (db : Store) (t : Txn) : Stay db (spillBuffer db t) (·.1) := by
  refine .ite (.pure rfl id) (.step (stay_spillLoop _ db t none) (fun db ⟨t, cur, rc⟩ => ?_))
  exact .step (stay_spillLast db t cur rc) (fun _ _ => .ite (.pure rfl id) (.pure rfl id))

theorem stay_maybeSpill (db : Store) (t : Txn) : Stay db (maybeSpill db t) (·.1) :=
  .ite (.pure rfl id) (.bind (stay_spillBuffer db t) (fun ⟨_, _, _⟩ => .ite (.pure rfl id) (.pure rfl id)))

theorem stay_txnSet (rd : Rd) (db : Store) (t : Txn) (i : Nat) (key : Bytes) (v : EVal) :
    Stay db (txnSet rd db t i key v) (·.1) := by
  unfold txnSet
  split
  · exact stay_maybeSpill db _
  · exact .pure rfl id

theorem stay_put (db : Store) (t : Txn) (tree key value : Bytes) (fl : PutFlags) :
    Stay db (put db t tree key value fl) (·.1) := by
  refine .ite (.pure rfl id) (.ite (.pure rfl id) (.bind (stay_reads db)
    (fun rd => .ite (.pure rfl id) (.ite (.pure rfl id) ?_))))
  exact .ite (.pure rfl id) (stay_txnSet rd db _ _ _ _)

theorem stay_del (db : Store) (t : Txn) (tree key : Bytes) : Stay db (del db t tree key) (·.1) := by
  refine .ite (.pure rfl id) (.ite (.pure rfl id) (.bind (stay_reads db)
    (fun rd => .ite (.pure rfl id) (.ite (.pure rfl id) ?_))))
  exact .ite (.pure rfl id) (stay_txnSet rd db _ _ _ _)

theorem stay_rollbackSavepoint (db : Store) (t : Txn) : Stay db (rollbackSavepoint db t) (·.1) := by
  unfold rollbackSavepoint
  refine .ite (.pure rfl id) ?_
  cases t.marks with
  | nil => exact .pure rfl id
  | cons m l => exact .ite (.pure rfl id) (.ite (.pure rfl id) (stay_maybeSpill db _))

theorem stay_runsFree : ∀ (l : List FileMeta) (db : Store), Stay db (runsFree db l) id
  | [], _ => .pure rfl id
  | m :: l, db => by
    refine .bind (stay_call (.inl rfl)) (fun _ =>
      Stay.from { db with refs.obsolete := m.num :: db.refs.obsolete } ?_ rfl id)
    exact .bind (stay_fileFree _ m) (fun db => stay_runsFree l db)

theorem stay_txnFree (db : Store) (t : Txn) : Stay db (txnFree db t) id :=
  .bind (stay_runsFree _ db) (fun _ => Stay.from _ (stay_versionUnref _ _) rfl id)

theorem stay_abort (db : Store) (t : Txn) : Stay db (abort db t) id := by
  unfold abort
  split
  · exact Stay.from { db with users.writer := false } (stay_txnFree _ t) rfl id
  · exact stay_txnFree db t

theorem stay_readFlush (db : Store) : Stay db (readFlush db) id := by
  let idle := if db.users.readSeen = db.lastSeq then db.users.readIdle + 1 else 0
  refine .ite (.pure rfl id) (Stay.from { db with users.readIdle := idle, users.readSeen := db.lastSeq }
    (.ite (.pure rfl id) ?_) rfl id)
  exact .step (stay_flushStep _ _) (fun _ _ => .pure rfl id)

theorem stay_beginRead (db : Store) : Stay db (beginRead db) (·.1) :=
  .ite (.pure rfl id) (.thru (stay_readFlush db) (fun _ => .pure rfl id))

theorem stay_commitRunsName (db : Store) (t : Txn) : Stay db (commitRunsName db t) (·.1) := by
  refine Stay.from _ (.step (stay_manifestWrite _) (fun db' rc => .ite ?_ ?_)) rfl id
  · exact Stay.from _ (.thru (stay_filesDrop _ _) (fun _ => .thru (stay_abort _ _) (fun _ => .pure rfl id))) rfl id
  · exact Stay.from _ (.thru (stay_versionUnref _ _) (fun _ => .pure rfl id)) rfl id

theorem stay_commitRunsReady (db : Store) (t : Txn) : Stay db (commitRunsReady db t) (·.1) :=
  .step (stay_flushMemtable db) (fun db _ => .ite (.pure rfl id) (stay_spillBuffer db t))

theorem stay_commitRuns (db : Store) (t : Txn) : Stay db (commitRuns db t) (·.1) := by
  refine .step (stay_commitRunsReady db t) (fun db ⟨t, rc⟩ => .ite (.thru (stay_abort _ _) (fun _ => .pure rfl id)) ?_)
  refine .step (stay_commitRunsName db t) (fun db rc => .ite (.pure rfl id) (.thru (stay_abort _ _) (fun db => ?_)))
  exact .step (stay_maybeCompact _ _) (fun _ _ => .ite (.pure rfl id) (.pure rfl id))

theorem stay_logRoom (db : Store) (need : Nat) : Stay db (logRoom db need) (·.1) :=
  .ite (.pure rfl id) (.bind (stay_zeroFill db _ _ _ _) (fun _ => .ite (.pure rfl id) (.pure rfl id)))

theorem stay_commitWrite (db : Store) (r : LogRec) (sync : Bool) : Stay db (commitWrite db r sync) (·.1) := by
  refine .step (stay_logRoom db _) (fun db rc => .ite (.pure rfl id) ?_)
  exact .bind (stay_call (.inl rfl)) (fun _ => .ite (.pure rfl id) (.ite (stay_flushFile rfl) (.pure rfl id)))

theorem stay_commitFreeze (db : Store) : Stay db (commitFreeze db) (·.1) :=
  .ite (.pure rfl id) (.step (stay_flushStep db none) (fun db _ => .ite (.pure rfl id) (stay_freeze db)))

theorem stay_commitWork (db : Store) (wrote : Nat) : Stay db (commitWork db wrote) (·.1) := by
  refine .step (stay_commitFreeze db) (fun db rc => .ite (.pure rfl id) ?_)
  refine .step (stay_flushStep db _) (fun db rc => .ite (.pure rfl id) ?_)
  refine .step (.ite (stay_spareStep db _) (.pure rfl id)) (fun db rc => .ite (.pure rfl id) ?_)
  exact .step (stay_maybeCompact _ _) (fun _ _ => .ite (.pure rfl id) (.pure rfl id))

theorem stay_commitRecord (db : Store) (t : Txn) (sync : Bool) : Stay db (commitRecord db t sync) (·.1) := by
  refine .bind (stay_commitWrite db _ sync) (fun ⟨db, rc⟩ => .ite (.bind (stay_abort _ _) (fun _ => .pure rfl id)) ?_)
  exact Stay.from _ (.thru (stay_abort _ _) (fun db => stay_commitWork db _)) rfl id

theorem stay_commit (db : Store) (t : Txn) (sync : Bool) : Stay db (commit db t sync) (·.1) := by
  refine .ite (.pure rfl id) (.ite (.bind (stay_abort _ _) (fun _ => .pure rfl id)) ?_)
  exact .ite (.bind (stay_abort _ _) (fun _ => .pure rfl id))
    (.ite (stay_commitRuns db t) (stay_commitRecord db t sync))

theorem stay_sync (db : Store) : Stay db (sync db) (·.1) :=
  .ite (.pure rfl id) (.ite (.pure rfl id) (.bind (stay_flushFile rfl) (fun ⟨_, _⟩ =>
  .ite (.pure rfl id) (.pure rfl id))))

theorem stay_spareNow (db : Store) : Stay db (spareNow db) (·.1) := by
  refine .ite (.pure rfl id) (.bind (stay_spareOpen db) (fun ⟨db, rc⟩ => .ite (.pure rfl id) ?_))
  refine .bind (stay_flushFile rfl) (fun ⟨db, rc⟩ => .ite (.pure rfl id) ?_)
  exact .bind (stay_call (.inr ⟨rfl, rfl⟩)) (fun _ => .ite (.pure rfl id) (.pure rfl id))

theorem stay_flushFreeze (db : Store) : Stay db (flushFreeze db) (·.1) := by
  refine .ite (.pure rfl id) (.step (stay_spareNow db) (fun db rc => .ite (.pure rfl id) ?_))
  exact .step (stay_freeze db) (fun _ _ => .pure rfl id)

theorem stay_flushRelog (db : Store) (short : Bool) : Stay db (flushRelog db short) (·.1) :=
  .ite (.step (stay_spareStep db none) (fun _ _ => .ite (.pure rfl id) (.pure rfl id))) (.pure rfl id)

theorem stay_flushSteps (db : Store) : Stay db (flushSteps db) (·.1) := by
  refine .step (stay_sync db) (fun db rc => .ite (.pure rfl id)
    (.step (stay_flushStep db none) (fun db rc => .ite (.pure rfl id) ?_)))
  refine .step (stay_flushFreeze db) (fun db ⟨short, rc⟩ => .ite (.pure rfl id) ?_)
  refine .step (stay_flushStep db none) (fun db rc => .ite (.pure rfl id) ?_)
  exact .step (stay_flushRelog db short) (fun db rc => .ite (.pure rfl id) (stay_maybeCompact db 0))

theorem stay_flush (db : Store) : Stay db (flush db) (·.1) :=
  .ite (.pure rfl id) (.ite (.pure rfl id) (.bind (stay_flushSteps db) (fun ⟨_, _⟩ =>
  .ite (.pure rfl id) (.pure rfl id))))

theorem stay_compDrop (db : Store) : Stay db (compDrop db) id := by
  unfold compDrop
  cases db.comp with
  | none => exact .pure rfl id
  | some c => exact stay_compFree db c true

theorem stay_flushDrop (db : Store) : Stay db (flushDrop db) id := by
  unfold flushDrop
  cases db.fl with
  | none => exact .pure rfl id
  | some f => exact .thru (stay_flushAbandon db f) (fun _ => .pure rfl id)

theorem stay_storeFree (db : Store) : Stay db (storeFree db) id := by
  refine .thru (stay_compDrop db) (fun db => .thru (stay_flushDrop db) (fun db => ?_))
  exact stay_versionUnref db db.cur

theorem stay_closeSync (db : Store) : Stay db (closeSync db) id :=
  .ite (.pure rfl id) (.step (stay_sync db) (fun _ _ => .pure rfl id))

theorem stay_close (db : Store) : Stay db (close db) (·.1) :=
  .ite (.pure rfl id) (.thru (stay_closeSync db) (fun db => .thru (stay_storeFree db) (fun _ => .pure rfl id)))

theorem stay_check (db : Store) (garbage : List Nat) : Stay db (check db garbage) (fun _ => db) :=
  .bind (stay_reads db) (fun _ => .bind (stay_io (.inl rfl)) (fun _ => .pure rfl id))

end Lsm
end Gbasic
