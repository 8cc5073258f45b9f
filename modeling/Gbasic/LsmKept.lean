import Gbasic.LsmCommit
/-!
# LsmKept — what writing a file and letting go leave alone

Writing a sorted file, short of its sync, takes numbers, and letting records go changes references: neither touches
anything else of the store, or syncs anything (`Kept`).
-/
namespace Gbasic
namespace Lsm

open Prog

/-- The directory a call syncs, a file of it or itself; the flushes of a backup's destination are no store's. -/
def syncOf : IoOp → Option Nat
  | .sync n => some n.dir
  | .syncDir _ .copy => none
  | .syncDir d _ => some d
  | _ => none

theorem trace_exec (w : World) (o : IoOp) : (exec w o).2.trace = (o, (exec w o).1.err) :: w.trace := by
  unfold exec
  dsimp only
  split <;> rfl

/-- The same store but for the numbers taken, the references and the users; and nothing was synced. -/
structure Kept (a b : Store × World) : Prop where
  store : ∃ n r u, b.1 = { a.1 with nextFile := n, refs := r, users := u }
  calls : ∃ l, b.2.trace = l ++ a.2.trace ∧ ∀ p ∈ l, syncOf p.1 = none

theorem Kept.trans (a b c : Store × World) (h : Kept a b) (h' : Kept b c) : Kept a c where
  store := by
    obtain ⟨n, r, u, h⟩ := h.store
    obtain ⟨n', r', u', h'⟩ := h'.store
    exact ⟨n', r', u', by rw [h', h]⟩
  calls := by
    obtain ⟨l, hl, hc⟩ := h.calls
    obtain ⟨l', hl', hc'⟩ := h'.calls
    refine ⟨l' ++ l, by rw [hl', hl, List.append_assoc], fun p hp => ?_⟩
    rcases List.mem_append.1 hp with hp | hp
    · exact hc' p hp
    · exact hc p hp

theorem Kept.failed {a b : Store × World} (h : Kept a b) : b.1.failed = a.1.failed := by
  obtain ⟨n, r, u, h⟩ := h.store
  rw [h]

theorem Kept.durableSeq {a b : Store × World} (h : Kept a b) : b.1.durableSeq = a.1.durableSeq := by
  obtain ⟨n, r, u, h⟩ := h.store
  rw [h]

abbrev Keep {α : Type} (db : Store) (p : M α) (out : α → Store) : Prop := Moves exec Kept db p out

namespace Keep

variable {α β : Type} {db : Store}

variable {out : α → Store}

theorem pure {a : α} (h : ∃ n r u, out a = { db with nextFile := n, refs := r, users := u }) :
    Keep db (Pure.pure a : M α) out :=
  Moves.pure (fun _ => ⟨h, [], rfl, fun _ hp => by cases hp⟩)

theorem same {a : α} (h : out a = db) : Keep db (Pure.pure a : M α) out :=
  pure ⟨db.nextFile, db.refs, db.users, h⟩

theorem bind {p : M α} {f : α → M β} {out' : β → Store} (hp : Keep db p out) (hf : ∀ a, Keep (out a) (f a) out') :
    Keep db (p >>= f) out' := Moves.bind Kept.trans hp hf

theorem ite {c : Prop} [Decidable c] {p q : M α} (hp : Keep db p out) (hq : Keep db q out) :
    Keep db (if c then p else q) out := Moves.ite (fun _ => hp) (fun _ => hq)

theorem «from» (db' : Store) {p : M α} (hp : Keep db' p out)
    (h : ∃ n r u, db' = { db with nextFile := n, refs := r, users := u }) : Keep db p out :=
  Moves.from Kept.trans (fun _ => ⟨h, [], rfl, fun _ hp => by cases hp⟩) hp

theorem io {o : IoOp} (h : syncOf o = none) : Keep db (Lsm.io o) (fun _ => db) := by
  intro w
  refine ⟨trivial, ⟨db.nextFile, db.refs, db.users, rfl⟩, [(o, (exec w o).1.err)], trace_exec w o, fun p hp => ?_⟩
  rw [List.mem_singleton.1 hp]
  exact h

theorem call {o : IoOp} (h : syncOf o = none) : Keep db (Lsm.call o) (fun _ => db) := bind (io h) (fun _ => same rfl)

end Keep

/-! ## Writing a sorted file -/

theorem keep_bldWrite (db : Store) (b : Builder) (p : Part) : Keep db (bldWrite db b p) (fun _ => db) :=
  .ite (.same rfl) (.bind (.call rfl) (fun _ => .ite (.same rfl) (.same rfl)))

theorem keep_bldOpen (db : Store) : Keep db (bldOpen db) (·.1) := by
  refine Keep.from { db with nextFile := db.nextFile + 1 } ?_ ⟨_, _, _, rfl⟩
  refine .bind (.call rfl) (fun _ => .ite (.same rfl) ?_)
  refine .bind (.call rfl) (fun _ => .ite (.bind (.call rfl) (fun _ => .same rfl)) ?_)
  exact .bind (keep_bldWrite _ _ _) (fun _ => .same rfl)

theorem keep_bldFinishBlock (db : Store) (b : Builder) : Keep db (bldFinishBlock db b) (fun _ => db) :=
  .ite (.same rfl) (.bind (keep_bldWrite _ _ _) (fun _ => .same rfl))

theorem keep_bldBlobOpen (db : Store) (b : Builder) : Keep db (bldBlobOpen db b) (·.1) := by
  refine .ite (.same rfl) (Keep.from { db with nextFile := db.nextFile + 1 } ?_ ⟨_, _, _, rfl⟩)
  refine .bind (.call rfl) (fun _ => .ite (.bind (.call rfl) (fun _ => .same rfl)) ?_)
  refine .bind (.call rfl) (fun _ => .ite (.bind (.call rfl) (fun _ => .same rfl)) ?_)
  exact .bind (.call rfl) (fun _ => .ite (.same rfl) (.same rfl))

theorem keep_bldBlob (db : Store) (b : Builder) (v : Val) : Keep db (bldBlob db b v) (·.1) := by
  refine .bind (keep_bldBlobOpen db b) (fun ⟨db, b, rc⟩ => .ite (.same rfl) ?_)
  refine .bind (.call rfl) (fun _ => .ite (.same rfl) ?_)
  exact .bind (.call rfl) (fun _ => .ite (.same rfl) (.same rfl))

theorem keep_bldPut (db : Store) (b : Builder) (e : Ent) : Keep db (bldPut db b e) (fun _ => db) :=
  .ite (keep_bldFinishBlock _ _) (.same rfl)

theorem keep_bldAdd (db : Store) (b : Builder) (e : Ent) : Keep db (bldAdd db b e) (·.1) := by
  refine .ite (.same rfl) ?_
  cases e.val with
  | put v =>
    refine .ite (.bind (keep_bldBlob db b v) (fun ⟨db, b, rc, p⟩ => .ite (.same rfl) ?_)) ?_
    · exact .bind (keep_bldPut _ _ _) (fun _ => .same rfl)
    · exact .bind (keep_bldPut _ _ _) (fun _ => .same rfl)
  | blob | del => exact .bind (keep_bldPut _ _ _) (fun _ => .same rfl)

/-! ## Letting go -/

theorem keep_blobUnref (db : Store) (num : Nat) (del : Bool) : Keep db (blobUnref db num del) (fun _ => db) :=
  .ite (.same rfl) (.ite (.bind (.call rfl) (fun _ => .same rfl)) (.same rfl))

theorem keep_blobsUnref (db : Store) (del : Bool) : ∀ l, Keep db (blobsUnref db del l) (fun _ => db)
  | [] => .same rfl
  | num :: l => .bind (keep_blobUnref db num del) (fun _ => keep_blobsUnref db del l)

theorem keep_fileFree (db : Store) (m : FileMeta) : Keep db (fileFree db m) id :=
  Keep.from _ (.bind (keep_blobsUnref _ _ _) (fun _ => .same rfl)) ⟨_, _, _, rfl⟩

theorem keep_filesFree : ∀ (l : List FileMeta) (db : Store), Keep db (filesFree db l) id
  | [], _ => .same rfl
  | m :: l, db => .bind (keep_fileFree db m) (fun db => keep_filesFree l db)

theorem keep_fileDropRef (db : Store) (m : FileMeta) : Keep db (fileDropRef db m) id :=
  .ite (.bind (.call rfl) (fun _ => keep_fileFree db m)) (keep_fileFree db m)

theorem keep_filesDrop : ∀ (l : List FileMeta) (db : Store), Keep db (filesDrop db l) id
  | [], _ => .same rfl
  | m :: l, db => .ite (keep_filesDrop l db) (.bind (keep_fileDropRef db m) (fun db => keep_filesDrop l db))

theorem keep_versionUnref (db : Store) (v : Version) : Keep db (versionUnref db v) id :=
  Keep.from { db with refs.held := db.refs.held.eraseP (fun x => x.vid = v.vid) } (keep_filesDrop _ _) ⟨_, _, _, rfl⟩

theorem keep_runsFree : ∀ (l : List FileMeta) (db : Store), Keep db (runsFree db l) id
  | [], _ => .same rfl
  | m :: l, db => by
    refine .bind (.call rfl) (fun _ => Keep.from { db with refs.obsolete := m.num :: db.refs.obsolete } ?_
      ⟨_, _, _, rfl⟩)
    exact .bind (keep_fileFree _ m) (fun db => keep_runsFree l db)

theorem keep_txnFree (db : Store) (t : Txn) : Keep db (txnFree db t) id :=
  .bind (keep_runsFree _ db) (fun _ => Keep.from _ (keep_versionUnref _ _) ⟨_, _, _, rfl⟩)

theorem keep_abort (db : Store) (t : Txn) : Keep db (abort db t) id := by
  unfold abort
  split
  · exact Keep.from { db with users.writer := false } (keep_txnFree _ t) ⟨_, _, _, rfl⟩
  · exact keep_txnFree db t

end Lsm
end Gbasic
