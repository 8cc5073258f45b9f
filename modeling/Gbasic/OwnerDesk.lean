import Gbasic.OwnerLoop
import Gbasic.Prog
/-!
# OwnerDesk — what a turn does to requests, replies and the writer's queue

Of a turn's state this keeps what requests, replies, transactions and the queue are told by (`desk`), and of what was
asked the runs, commits, syncs and transactions that write.  Each small function of a turn changes it in one way.
-/
namespace Gbasic
namespace Owner

open Lsm (Status)
open Key (Bytes)
open Does (modify ite get at_state)

/-- What was asked that tells of statements, commits and writers. -/
def Asked.marked : Asked → Bool
  | .began t => t.write
  | .ran .. | .committed .. | .synced _ => true
  | _ => false

/-- What the owner asked that tells of statements, commits and writers, the newest first. -/
def Shared.log (o : Shared) : List Asked := o.asked.filter Asked.marked

structure Desk where
  id : Nat
  hello : Bool
  closing : Bool
  dead : Bool
  out : List Frame
  reqs : List Req
  got : List Nat
  past : List Past
  awaiting : Bool
  group : List Pend
  tx : Tx
  depth : Nat
  txn : Option Nat
  work : Option Nat
  workTxn : Option Nat
  workId : Nat
  queued : Bool
  fifo : List Nat
  writer : Option Nat
  svc : Option Service
  log : List Asked

def desk (s : Turn) : Desk where
  id := s.c.id
  hello := s.c.hello
  closing := s.c.closing
  dead := s.c.dead
  out := s.c.out
  reqs := s.c.reqs
  got := s.c.got
  past := s.c.past
  awaiting := s.c.awaiting
  group := s.o.group
  tx := s.c.tx
  depth := s.c.depth
  txn := s.c.txn
  work := s.c.work
  workTxn := s.c.workTxn
  workId := s.c.workId
  queued := s.c.queued
  fifo := s.o.fifo
  writer := s.o.writer
  svc := s.o.svc
  log := s.o.asked.filter Asked.marked

structure On (d : Desk) (s : Turn) : Prop where
  desk : desk s = d
  svcs : ∀ k ∈ s.c.cursors, k.svc.isSome

namespace Desk

variable (d : Desk)

def replies (id : Nat) (r : Reply) : Desk := { d with out := d.out ++ [⟨id, r⟩] }

def holds (id : Nat) (r : Reply) : Desk :=
  { d with group := d.group ++ [⟨some d.id, id, [⟨id, r⟩]⟩], awaiting := true }

def asks (a : Asked) : Desk := { d with log := a :: d.log }

def unqueued : Desk := { d with fifo := d.fifo.erase d.id, queued := false }

def left : Desk := if d.queued then d.unqueued else d

theorem left_fifo : d.left.fifo = if d.queued then d.fifo.erase d.id else d.fifo := by
  rw [left]
  split_ifs <;> rfl

theorem left_writer : d.left.writer = d.writer := by
  rw [left]
  split_ifs <;> rfl

theorem left_group : d.left.group = d.group := by
  rw [left]
  split_ifs <;> rfl

theorem left_log : d.left.log = d.log := by
  rw [left]
  split_ifs <;> rfl

theorem left_svc : d.left.svc = d.svc := by
  rw [left]
  split_ifs <;> rfl

def joined : Desk := if d.queued then d else { d with fifo := d.fifo ++ [d.id], queued := true }

def dropped (tx : Tx) : Desk :=
  { d with tx := tx, txn := none, writer := if d.writer = some d.id then none else d.writer }

def ended : Desk := { d.dropped .none with depth := 0 }

def idled : Desk := { d with work := none, workTxn := none }

def popped : Desk := { d with reqs := d.reqs.tail }

def works (k : Nat) (own : Option Nat) (id : Nat) : Desk := { d with work := some k, workTxn := own, workId := id }

end Desk

section
variable {d : Desk}

/-! ## Steps of a turn -/

theorem on_conn (g : Desk → Desk) {f : Conn → Conn} (hf : ∀ s : Turn, desk ⟨s.o, f s.c⟩ = g (desk s))
    (hk : ∀ c : Conn, (f c).cursors ⊆ c.cursors) : Does (On d) (onConn f) (fun _ => On (g d)) := by
  refine modify (fun s h => ⟨?_, fun k hkc => h.svcs k (hk s.c hkc)⟩)
  rw [← h.desk]
  exact hf s

theorem on_shared (g : Desk → Desk) {f : Shared → Shared} (hf : ∀ s : Turn, desk ⟨f s.o, s.c⟩ = g (desk s)) :
    Does (On d) (onShared f) (fun _ => On (g d)) := by
  refine modify (fun s h => ⟨?_, h.svcs⟩)
  rw [← h.desk]
  exact hf s

theorem on_quiet {f : Conn → Conn} (hf : ∀ s : Turn, desk ⟨s.o, f s.c⟩ = desk s)
    (hk : ∀ c : Conn, (f c).cursors ⊆ c.cursors) : Does (On d) (onConn f) (fun _ => On d) := on_conn (fun d => d) hf hk

theorem on_ask {a : Asked} (ha : a.marked = false) : Does (On d) (ask a) (fun _ => On d) := by
  refine on_shared (fun d => d) (fun s => ?_)
  simp only [desk, List.filter_cons, ha]
  rfl

theorem on_mark {a : Asked} (ha : a.marked = true) : Does (On d) (ask a) (fun _ => On (d.asks a)) := by
  refine on_shared (fun d => d.asks a) (fun s => ?_)
  simp only [desk, List.filter_cons, ha]
  rfl

theorem on_askIf {a : Asked} {b : Bool} (ha : a.marked = false) : Does (On d) (askIf b a) (fun _ => On d) :=
  ite (fun _ => on_ask ha) (fun _ => Does.pure (fun _ h => h))

theorem on_outFrame {id : Nat} {r : Reply} : Does (On d) (outFrame id r) (fun _ => On (d.replies id r)) := by
  refine on_conn (fun d => d.replies id r) ?_ ?_
  · exact fun _ => rfl
  · exact fun _ _ h => h

theorem on_sendError {id : Nat} {code : Code} {m : Bytes} :
    Does (On d) (sendError id code m) (fun _ s => ∃ e, On (d.replies id (.error e)) s) :=
  on_outFrame.post (fun _ _ h => ⟨_, h⟩)

theorem on_popHead : Does (On d) popHead (fun _ => On d.popped) := by
  refine on_conn Desk.popped ?_ ?_
  · exact fun _ => rfl
  · exact fun _ _ h => h

/-! ## The queue -/

theorem on_fifoRemove : Does (On d) fifoRemove (fun _ => On d.unqueued) := by
  refine get (fun s hs => at_state ?_ hs)
  have hid : s.c.id = d.id := congrArg Desk.id hs.desk
  refine Does.bind (R := fun _ => On { d with fifo := d.fifo.erase d.id }) ?_ (fun _ => ?_)
  · rw [hid]
    refine on_shared (fun x => { x with fifo := x.fifo.erase d.id }) ?_
    exact fun _ => rfl
  · refine on_conn (fun x => { x with queued := false }) ?_ ?_
    · exact fun _ => rfl
    · exact fun _ _ h => h

theorem on_leaveQueue : Does (On d) leaveQueue (fun _ => On d.left) := by
  refine get (fun s hs => at_state ?_ hs)
  have hq : s.c.queued = d.queued := congrArg Desk.queued hs.desk
  rw [hq, Desk.left]
  by_cases h : d.queued = true
  · rw [if_pos h, if_pos h]
    exact on_fifoRemove
  · rw [if_neg h, if_neg h]
    exact Does.pure (fun _ h => h)

theorem on_joinQueue : Does (On d) joinQueue (fun _ => On d.joined) := by
  refine get (fun s hs => at_state ?_ hs)
  have hid : s.c.id = d.id := congrArg Desk.id hs.desk
  have hq : s.c.queued = d.queued := congrArg Desk.queued hs.desk
  rw [hq, hid, Desk.joined]
  by_cases h : d.queued = true
  · rw [if_pos h, if_pos h]
    exact Does.pure (fun _ h => h)
  · rw [if_neg h, if_neg h]
    refine Does.bind (R := fun _ => On { d with fifo := d.fifo ++ [d.id] }) ?_ (fun _ => ?_)
    · refine on_shared (fun x => { x with fifo := x.fifo ++ [d.id] }) ?_
      exact fun _ => rfl
    · refine on_conn (fun x => { x with queued := true }) ?_ ?_
      · exact fun _ => rfl
      · exact fun _ _ h => h

inductive Took (d : Desk) : Desk → Prop where
  | mine (h : d.writer = some d.id) : Took d d
  | free (h : d.writer = none) (hf : d.fifo = [] ∨ d.fifo.head? = some d.id) : Took d d.left

theorem on_writerTake : Does (On d) writerTake
    (fun b s => (b = true → ∃ d₁, Took d d₁ ∧ On d₁ s) ∧ (b = false → d.writer ≠ some d.id ∧ On d.joined s)) := by
  refine get (fun s hs => at_state ?_ hs)
  have hid : s.c.id = d.id := congrArg Desk.id hs.desk
  have hw : s.o.writer = d.writer := congrArg Desk.writer hs.desk
  have hf : s.o.fifo = d.fifo := congrArg Desk.fifo hs.desk
  rw [hid, hw, hf]
  refine ite (fun hmine => ?_) (fun hnot => ite (fun hfree => ?_) (fun _ => ?_))
  · exact Does.pure (fun _ h => ⟨fun _ => ⟨d, .mine hmine, h⟩, fun hb => absurd hb (by decide)⟩)
  · exact on_leaveQueue.bind (fun _ => Does.pure (fun _ h =>
      ⟨fun _ => ⟨d.left, .free hfree.1 hfree.2, h⟩, fun hb => absurd hb (by decide)⟩))
  · exact on_joinQueue.bind (fun _ => Does.pure (fun _ h => ⟨fun hb => absurd hb (by decide), fun _ => ⟨hnot, h⟩⟩))

/-! ## Transactions and cursors -/

theorem on_abortOwn {own : Option Nat} : Does (On d) (abortOwn own) (fun _ => On d) := by
  cases own with
  | none => exact Does.pure (fun _ h => h)
  | some t => exact on_ask rfl

theorem on_closeSvc {k : Option Nat} : Does (On d) (closeSvc k) (fun _ => On d) := by
  cases k with
  | none => exact Does.pure (fun _ h => h)
  | some k => exact on_ask rfl

theorem on_handle : Does (On d) handle (fun _ => On d) := fun _ h => ⟨h.desk, h.svcs⟩

theorem on_beginTxn {write : Bool} {st : Status} : Does (On d) (beginTxn write st) (fun o s => match o with
    | none => On d s
    | some t => On (if write then d.asks (.began ⟨t, true⟩) else d) s) := by
  unfold beginTxn
  refine ite (fun _ => on_handle.bind (fun t => ?_)) (fun _ => Does.pure (fun _ h => h))
  cases write with
  | false => exact (on_ask rfl).bind (fun _ => Does.pure (fun _ h => h))
  | true => exact (on_mark rfl).bind (fun _ => Does.pure (fun _ h => h))

theorem on_cursorFree {k : Cursor} : Does (On d) (cursorFree k) (fun _ => On d) :=
  on_closeSvc.bind (fun _ => on_abortOwn)

theorem on_cursorUnlink {k : Cursor} : Does (On d) (cursorUnlink k) (fun _ => On d) := by
  refine on_quiet ?_ ?_
  · exact fun _ => rfl
  · exact fun _ => List.erase_subset

theorem on_cursorDrop {k : Cursor} : Does (On d) (cursorDrop k) (fun _ => On d) :=
  on_cursorUnlink.bind (fun _ => on_cursorFree)

theorem on_freeAll : ∀ {ks : List Cursor}, Does (On d) (freeAll ks) (fun _ => On d)
  | [] => Does.pure (fun _ h => h)
  | _ :: _ => on_cursorFree.bind (fun _ => on_freeAll)

theorem on_cursorsOfTxn : Does (On d) cursorsOfTxn (fun _ => On d) := by
  refine get (fun s hs => at_state (Does.bind (R := fun _ => On d) (on_quiet ?_ ?_) (fun _ => on_freeAll)) hs)
  · exact fun _ => rfl
  · exact fun _ => List.filter_subset_self _

theorem on_txnDrop : Does (On d) txnDrop (fun _ => On (d.dropped d.tx)) := by
  refine on_cursorsOfTxn.bind (fun _ => get (fun s hs => at_state ?_ hs))
  refine on_abortOwn.bind (fun _ => Does.bind (R := fun _ => On { d with txn := none }) ?_ (fun _ => ?_))
  · refine on_conn (fun x => { x with txn := none }) ?_ ?_
    · exact fun _ => rfl
    · exact fun _ _ h => h
  · refine get (fun s₁ hs₁ => at_state ?_ hs₁)
    have hid : s₁.c.id = d.id := congrArg Desk.id hs₁.desk
    rw [hid]
    refine on_shared (fun x => { x with writer := if x.writer = some d.id then none else x.writer }) ?_
    exact fun _ => rfl

theorem on_txnEnd : Does (On d) txnEnd (fun _ => On d.ended) := by
  refine on_txnDrop.bind (fun _ => on_conn (fun x => { x with tx := .none, depth := 0 }) ?_ ?_)
  · exact fun _ => rfl
  · exact fun _ _ h => h

theorem on_txnFailed {why : Bytes} : Does (On d) (txnFailed why) (fun _ => On (d.dropped .failed)) := by
  refine on_txnDrop.bind (fun _ => on_conn (fun x => { x with tx := .failed }) ?_ ?_)
  · exact fun _ => rfl
  · exact fun _ _ h => h

theorem on_clearWork : Does (On d) clearWork (fun _ => On d.idled) := by
  refine on_conn Desk.idled ?_ ?_
  · exact fun _ => rfl
  · exact fun _ _ h => h

theorem on_workEnd : Does (On d) workEnd (fun _ => On (if d.work.isSome then d.idled else d)) := by
  refine get (fun s hs => at_state ?_ hs)
  have hw : s.c.work = d.work := congrArg Desk.work hs.desk
  rw [hw]
  cases d.work with
  | none => exact Does.pure (fun _ h => h)
  | some k => exact (on_ask rfl).bind (fun _ => on_abortOwn.bind (fun _ => on_clearWork))

theorem on_txnRefuses {id : Nat} : Does (On d) (txnRefuses id)
    (fun b s => (b = true → (d.tx = .failed ∨ d.tx = .timedOut) ∧ ∃ e, On (d.replies id (.error e)) s) ∧
      (b = false → d.tx ≠ .failed ∧ d.tx ≠ .timedOut ∧ On d s)) := by
  refine get (fun s hs => at_state ?_ hs)
  have htx : s.c.tx = d.tx := congrArg Desk.tx hs.desk
  rw [htx]
  have hquiet : ∀ x : Tx, x ≠ .failed → x ≠ .timedOut → Does (On d) (pure false : Act Bool)
      (fun b s => (b = true → (x = .failed ∨ x = .timedOut) ∧ ∃ e, On (d.replies id (.error e)) s) ∧
        (b = false → x ≠ .failed ∧ x ≠ .timedOut ∧ On d s)) := fun x hx hy =>
    Does.pure (fun _ h => ⟨fun hb => absurd hb (by decide), fun _ => ⟨hx, hy, h⟩⟩)
  cases d.tx with
  | none | read | write => exact hquiet _ (by decide) (by decide)
  | failed =>
    exact on_sendError.bind (fun _ => Does.pure (fun _ h => ⟨fun _ => ⟨.inl rfl, h⟩,
      fun hb => absurd hb (by decide)⟩))
  | timedOut =>
    exact on_sendError.bind (fun _ => Does.pure (fun _ h => ⟨fun _ => ⟨.inr rfl, h⟩,
      fun hb => absurd hb (by decide)⟩))

/-! ## Replies -/

theorem on_sendCommitted {a : Answers} {id t : Nat} {affected : Option Nat} {warnings : Bytes} :
    Does (On d) (sendCommitted a id t affected warnings) (fun _ s =>
      (a.commits = .ok ∧ On (d.holds id (.done affected (some ⟨a.commitNumber, t⟩) warnings)) s) ∨
      (a.commits ≠ .ok ∧ ∃ e, On (d.replies id (.error e)) s)) := by
  refine ite (fun hok => ?_) (fun hno => on_sendError.post (fun _ _ h => .inr ⟨hno, h⟩))
  refine get (fun s hs => at_state ?_ hs)
  have hout : s.c.out = d.out := congrArg Desk.out hs.desk
  dsimp only
  rw [hout]
  refine on_outFrame.bind (fun _ => get (fun s₁ hs₁ => at_state ?_ hs₁))
  have hid : s₁.c.id = d.id := congrArg Desk.id hs₁.desk
  have hout₁ : s₁.c.out = d.out ++ [⟨id, .done affected (some ⟨a.commitNumber, t⟩) warnings⟩] :=
    congrArg Desk.out hs₁.desk
  rw [hid, hout₁, List.drop_left]
  set f : Frame := ⟨id, .done affected (some ⟨a.commitNumber, t⟩) warnings⟩ with hf
  refine Does.bind (R := fun _ => On { d with group := d.group ++ [⟨some d.id, id, [f]⟩], out := d.out ++ [f] }) ?_
    (fun _ => ?_)
  · refine on_shared (fun x => { x with group := x.group ++ [⟨some d.id, id, [f]⟩] }) ?_
    exact fun _ => rfl
  · refine (on_conn (fun x => { x with out := x.out.take d.out.length, awaiting := true }) ?_ ?_).post
      (fun _ _ h => .inl ⟨hok, ?_⟩)
    · exact fun _ => rfl
    · exact fun _ _ h => h
    · -- the DONE is taken back out
      dsimp only at h
      rw [List.take_left] at h
      exact h

theorem on_sendRows {id : Nat} {body : Rows} {svc own : Option Nat} :
    Does (On d) (sendRows id body svc own) (fun _ s => ∃ cursor, On (d.replies id (.rows cursor body)) s) := by
  refine get (fun s hs => at_state ?_ hs)
  cases svc with
  | none => exact on_abortOwn.bind (fun _ => on_outFrame.post (fun _ _ h => ⟨none, h⟩))
  | some k =>
    dsimp only
    refine Does.bind (R := fun _ => On d) ?_ (fun _ => Does.bind (R := fun _ => On d) ?_ (fun _ =>
      on_outFrame.post (fun _ _ h => ⟨_, h⟩)))
    · refine on_shared (fun x => x) ?_
      exact fun _ => rfl
    · refine modify (fun s₁ h => ⟨h.desk, fun x hx => ?_⟩)
      rcases List.mem_cons.1 hx with rfl | hx
      · rfl
      · exact h.svcs x hx

theorem on_openCursor {t : Nat} : Does (On d) (openCursor t) (fun _ => On d) :=
  on_handle.bind (fun _ => (on_ask rfl).bind (fun _ => Does.pure (fun _ h => h)))

theorem on_runStatement {a : Answers} {t : Nat} {auto : Bool} {q : Statement} :
    Does (On d) (runStatement a t auto q) (fun r s => On (d.asks (.ran d.id t auto q)) s ∧
      ∀ k, r = .working k → q.sliced = true) := by
  refine get (fun s hs => at_state ?_ hs)
  have hid : s.c.id = d.id := congrArg Desk.id hs.desk
  rw [hid]
  refine (on_mark rfl).bind (fun _ => ?_)
  generalize a.run q.sliced = answer
  revert answer
  generalize q.sliced = sliced
  intro answer
  cases answer with
  | refused e partWay => exact Does.pure (fun _ h => ⟨h, fun k hk => by cases hk⟩)
  | working => exact on_openCursor.bind (fun k => Does.pure (fun _ h => ⟨h, fun _ _ => rfl⟩))
  | rows body more =>
    cases more with
    | true => exact on_openCursor.bind (fun k => Does.pure (fun _ h => ⟨h, fun k hk => by cases hk⟩))
    | false => exact Does.pure (fun _ h => ⟨h, fun k hk => by cases hk⟩)
  | done affected warnings => exact Does.pure (fun _ h => ⟨h, fun k hk => by cases hk⟩)

theorem on_setWork {id k : Nat} {own : Option Nat} :
    Does (On d) (setWork id k own) (fun _ => On (d.works k own id)) := by
  refine on_conn (fun x => x.works k own id) ?_ ?_
  · exact fun _ => rfl
  · exact fun _ _ h => h

end

end Owner
end Gbasic
