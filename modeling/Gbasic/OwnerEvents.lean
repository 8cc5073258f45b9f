import Gbasic.OwnerHandled
/-!
# OwnerEvents — every event, at the desk it is for

An event changes one connection and what all share (`Turned`), or none, or frees one.  The connections keep their
numbers, their cursors are the service's, and who is in a transaction has one (`State.Sane`).
-/
namespace Gbasic
namespace Owner

open Lsm (Status)
open Key (Bytes)
open Does (get at_state ite each)
open List (map_append map_cons nodup_cons mem_map mem_append mem_singleton)

namespace Desk

def gets (d : Desk) (r : Req) : Desk := { d with reqs := d.reqs ++ [r], got := d.got ++ [r.id] }

def noted (d : Desk) (r : Req) (tx : Tx) : Desk :=
  { d with past :=
      ⟨r.type, d.awaiting || (d.out.getLast?.map (fun f => f.reply.isDone)).getD false, tx, d.txn⟩ :: d.past }

end Desk

/-- Where the head request may be answered. -/
structure Desk.Answers (d : Desk) : Prop where
  closing : d.closing = false
  dead : d.dead = false
  work : d.work = none
  awaiting : d.awaiting = false

inductive Turned (d : Desk) : Event → Desk → Prop where
  | put (id : Nat) (r r' : Req) (hr : r'.id = r.id) : Turned d (.arrives id r) (d.gets r')
  /-- A CANCEL of the head request, which still reads or is parked. -/
  | cancelledRead (id : Nat) (r r' h : Req) (rs : List Req) (e : GsqlError) (hr : r'.id = r.id) (hh : d.reqs = h :: rs)
      (hw : d.work.isSome) : Turned d (.arrives id r) ((d.idled.replies h.id (.error e)).popped.gets r')
  | cancelledWait (id : Nat) (r r' h : Req) (rs : List Req) (e : GsqlError) (hr : r'.id = r.id) (hh : d.reqs = h :: rs)
      (hw : d.work = none) (hq : d.queued = true) :
      Turned d (.arrives id r) ((d.replies h.id (.error e)).popped.unqueued.gets r')
  | malformed (id : Nat) (short : Bool) (e : GsqlError) :
      Turned d (.malformed id short) { d.replies 0 (.error e) with closing := true }
  | gone (id : Nat) : Turned d (.gone id) { d with dead := true }
  | finish (id : Nat) : Turned d (.finish id) { d with dead := true }
  | flushed (id n : Nat) : Turned d (.flushed id n) d
  | answered (id : Nat) (a : Answers) (r : Req) (rs : List Req) (d₁ : Desk) (ha : d.Answers) (hr : d.reqs = r :: rs)
      (h : Handled d r .done d₁) : Turned d (.answer id a) (d₁.noted r d.tx).popped
  | kept (id : Nat) (a : Answers) (r : Req) (rs : List Req) (q : Outcome) (d₁ : Desk) (ha : d.Answers)
      (hr : d.reqs = r :: rs)
      (hq : q ≠ .done) (h : Handled d r q d₁) : Turned d (.answer id a) d₁
  | sliced (id : Nat) (a : SliceAnswer) : Turned d (.slice id a) d
  | finished (id : Nat) (a : SliceAnswer) (rep : Reply) (hw : d.work.isSome) (hc : rep.commit = none) :
      Turned d (.slice id a) (d.idled.replies d.workId rep).popped
  | gaveUp (id : Nat) (a : SliceAnswer) (e : GsqlError) (hw : d.work.isSome) (hin : d.workTxn = none) :
      Turned d (.slice id a) ((d.idled.dropped .failed).replies d.workId (.error e)).popped
  | waited (id : Nat) : Turned d (.timeouts id) d
  | timedOut (id : Nat) (htx : d.tx.isOpen) : Turned d (.timeouts id) { d.dropped .timedOut with depth := 0 }

section
variable {d : Desk} {a : Answers}

theorem Turned.on {e : Event} {d' : Desk} {s : Turn} (h : Turned d e d') (hs : On d' s) :
    ∃ d', Turned d e d' ∧ On d' s :=
  ⟨d', h, hs⟩

/-! ## One connection's turn -/

theorem on_putReq {r : Req} : Does (On d) (putReq r) (fun _ => On (d.gets r)) := by
  refine on_conn (fun x => x.gets r) ?_ ?_
  · exact fun _ => rfl
  · exact fun _ _ h => h

theorem on_cancelHead {r : Req} : Does (On d) (cancelHead r) (fun _ s => On d s ∨
    (∃ h rs e, d.reqs = h :: rs ∧ d.work.isSome ∧ On (d.idled.replies h.id (.error e)).popped s) ∨
    (∃ h rs e, d.reqs = h :: rs ∧ d.work = none ∧ d.queued = true ∧
      On (d.replies h.id (.error e)).popped.unqueued s)) := by
  refine get (fun s hs => at_state ?_ hs)
  have hwork : s.c.work = d.work := congrArg Desk.work hs.desk
  have hqueued : s.c.queued = d.queued := congrArg Desk.queued hs.desk
  have hreqs : s.c.reqs = d.reqs := congrArg Desk.reqs hs.desk
  have hhead : cancels r s.c = true → ∃ h rs, d.reqs = h :: rs := by
    rw [cancels, hreqs]
    intro hc
    cases hd : d.reqs with
    | nil =>
      rw [hd] at hc
      cases hc
    | cons h rs => exact ⟨h, rs, rfl⟩
  dsimp only
  rw [hwork, hqueued, hreqs]
  refine ite (fun hc => ?_) (fun hnot => ite (fun hc => ?_) (fun _ => Does.pure (fun _ h => .inl h)))
  · rw [Bool.and_eq_true] at hc
    obtain ⟨h, rs, hh⟩ := hhead hc.1
    rw [hh]
    refine on_workEnd.bind (fun _ => ?_)
    rw [if_pos hc.2]
    refine on_sendError.bind (fun _ => each (fun s₁ ⟨e, h₁⟩ => at_state (on_popHead.bind (fun _ => ?_)) h₁))
    exact Does.pure (fun _ hon => .inr (.inl ⟨h, rs, e, rfl, hc.2, hon⟩))
  · rw [Bool.and_eq_true] at hc
    obtain ⟨h, rs, hh⟩ := hhead hc.1
    rw [hc.1, Bool.true_and, Bool.not_eq_true, Option.isSome_eq_false_iff, Option.isNone_iff_eq_none] at hnot
    rw [hh]
    refine on_sendError.bind (fun _ => each (fun s₁ ⟨e, h₁⟩ => at_state (on_popHead.bind (fun _ =>
      on_fifoRemove.bind (fun _ => ?_))) h₁))
    exact Does.pure (fun _ hon => .inr (.inr ⟨h, rs, e, rfl, hnot, hc.2, hon⟩))

theorem turned_enqueue {id : Nat} {r : Req} :
    Does (On d) (enqueue r) (fun _ s => ∃ d', Turned d (.arrives id r) d' ∧ On d' s) := by
  refine ite (fun _ => on_cancelHead.bind (fun hit => each (fun s h => ?_))) (fun _ => on_putReq.post
    (fun _ _ hs => ?_))
  · rcases h with h | ⟨q, rs, e, hq, hw, h⟩ | ⟨q, rs, e, hq, hw, hqd, h⟩
    · exact at_state (on_putReq.post (fun _ _ hs =>
        (Turned.put id r { r with cancelHit := hit, fields := some [] } rfl).on hs)) h
    · exact at_state (on_putReq.post (fun _ _ hs =>
        (Turned.cancelledRead id r { r with cancelHit := hit, fields := some [] } q rs e rfl hq hw).on hs)) h
    · exact at_state (on_putReq.post (fun _ _ hs =>
        (Turned.cancelledWait id r { r with cancelHit := hit, fields := some [] } q rs e rfl hq hw hqd).on hs)) h
  · exact (Turned.put id r { r with cancelHit := false } rfl).on hs

theorem turned_malformed {id : Nat} {short : Bool} :
    Does (On d) (malformed short) (fun _ s => ∃ d', Turned d (.malformed id short) d' ∧ On d' s) := by
  have hclose : ∀ e, Does (On (d.replies 0 (.error e))) (onConn fun c => { c with closing := true })
      (fun _ s => ∃ d', Turned d (.malformed id short) d' ∧ On d' s) := fun e => by
    refine (on_conn (fun x => { x with closing := true }) ?_ ?_).post
      (fun _ _ hs => (Turned.malformed id short e).on hs)
    · exact fun _ => rfl
    · exact fun _ _ h => h
  refine ite (fun _ => ?_) (fun _ => ?_)
  · exact on_sendError.bind (fun _ => each (fun _ ⟨e, h⟩ => at_state (hclose e) h))
  · exact on_sendError.bind (fun _ => each (fun _ ⟨e, h⟩ => at_state (hclose e) h))

theorem on_note {r : Req} {tx : Tx} : Does (On d) (note r tx) (fun _ => On (d.noted r tx)) := by
  refine on_conn (fun x => x.noted r tx) ?_ ?_
  · exact fun _ => rfl
  · exact fun _ _ h => h

theorem turned_processHead {id : Nat} (ha : d.Answers) (hr : d.reqs ≠ []) (hopen : d.tx.isOpen → d.txn.isSome) :
    Does (On d) (processHead a) (fun _ s => ∃ d', Turned d (.answer id a) d' ∧ On d' s) := by
  refine get (fun s hs => at_state ?_ hs)
  have hreqs : s.c.reqs = d.reqs := congrArg Desk.reqs hs.desk
  have htx : s.c.tx = d.tx := congrArg Desk.tx hs.desk
  dsimp only
  rw [hreqs, htx]
  cases hd : d.reqs with
  | nil => exact absurd hd hr
  | cons r rs =>
    refine (ends_handleReq hopen).bind (fun q => each (fun s₁ ⟨d₁, h₁, hon⟩ => at_state ?_ hon))
    cases q with
    | done =>
      refine on_note.bind (fun _ => on_popHead.post (fun _ _ hs => (Turned.answered id a r rs d₁ ha hd h₁).on hs))
    | parked | working => exact Does.pure (fun _ hs => (Turned.kept id a r rs _ d₁ ha hd (by decide) h₁).on hs)

theorem turned_workStep {id : Nat} {x : SliceAnswer} :
    Does (On d) (workStep x) (fun _ s => ∃ d', Turned d (.slice id x) d' ∧ On d' s) := by
  refine get (fun s hs => at_state ?_ hs)
  have hwork : s.c.work = d.work := congrArg Desk.work hs.desk
  have hown : s.c.workTxn = d.workTxn := congrArg Desk.workTxn hs.desk
  have hid : s.c.workId = d.workId := congrArg Desk.workId hs.desk
  dsimp only
  rw [hwork, hown, hid]
  rcases hw : d.work with _ | k
  · exact Does.pure (fun _ h => (Turned.sliced id x).on h)
  have hsome : d.work.isSome := by rw [hw]; rfl
  cases x with
  | working => exact (on_ask rfl).post (fun _ _ h => (Turned.sliced id _).on h)
  | refused e =>
    refine (on_ask rfl).bind (fun _ => (on_ask rfl).bind (fun _ => on_clearWork.bind (fun _ => ?_)))
    have hplain : Does (On d.idled) (do sendErrorAbout d.workId e; popHead)
        (fun _ s => ∃ d', Turned d (.slice id (.refused e)) d' ∧ On d' s) :=
      on_outFrame.bind (fun _ => on_popHead.post (fun _ _ h => (Turned.finished id _ (.error e) hsome rfl).on h))
    rcases ho : d.workTxn with _ | t
    · refine Does.bind (R := fun _ s => On d.idled s ∨ On (d.idled.dropped .failed) s) ?_ (fun _ =>
        each (fun s₁ h₁ => ?_))
      · exact ite (fun _ => on_txnFailed.post (fun _ _ h => .inr h)) (fun _ => Does.pure (fun _ h => .inl h))
      · rcases h₁ with h₁ | h₁
        · exact at_state hplain h₁
        · refine at_state (on_outFrame.bind (fun _ => on_popHead.post (fun _ _ h => ?_))) h₁
          exact (Turned.gaveUp id _ e hsome ho).on h
    · exact (on_ask rfl).bind (fun _ => hplain)
  | rows body more =>
    have hrows : ∀ svc own, Does (On d.idled) (do sendRows d.workId body svc own; popHead)
        (fun _ s => ∃ d', Turned d (.slice id (.rows body more)) d' ∧ On d' s) := fun svc own => by
      refine on_sendRows.bind (fun _ => each (fun s₁ ⟨cursor, h₁⟩ => at_state ?_ h₁))
      exact on_popHead.post (fun _ _ h => (Turned.finished id _ (.rows cursor body) hsome rfl).on h)
    cases more with
    | true => exact (on_ask rfl).bind (fun _ => on_clearWork.bind (fun _ => hrows _ _))
    | false => exact (on_ask rfl).bind (fun _ => (on_ask rfl).bind (fun _ => on_clearWork.bind (fun _ => hrows _ _)))

theorem on_timeoutCursors : ∀ {ks : List Cursor}, Does (On d) (timeoutCursors ks) (fun _ => On d)
  | [] => Does.pure (fun _ h => h)
  | k :: ks => by
    refine get (fun s hs => at_state (ite (fun _ => ?_) (fun _ => on_timeoutCursors)) hs)
    refine Does.bind (R := fun _ => On d) (on_quiet ?_ ?_) (fun _ => on_cursorDrop.bind (fun _ => on_timeoutCursors))
    · exact fun _ => rfl
    · exact fun _ _ h => h

theorem turned_timeoutConn {id : Nat} :
    Does (On d) timeoutConn (fun _ s => ∃ d', Turned d (.timeouts id) d' ∧ On d' s) := by
  refine Does.bind (R := fun _ s => On d s ∨ d.tx.isOpen ∧ On { d.dropped .timedOut with depth := 0 } s) ?_ (fun _ =>
    each (fun s h => ?_))
  · refine get (fun s hs => at_state (ite (fun hexp => ?_) (fun _ => Does.pure (fun _ h => .inl h))) hs)
    have htx : s.c.tx = d.tx := congrArg Desk.tx hs.desk
    have hin : d.tx.isOpen := by
      rw [txnExpired, limitOf, htx] at hexp
      rw [Tx.isOpen]
      cases h : d.tx <;> simp_all
    refine on_txnEnd.bind (fun _ => (on_conn (fun x => { x with tx := .timedOut }) ?_ ?_).post (fun _ _ h =>
      .inr ⟨hin, h⟩))
    · exact fun _ => rfl
    · exact fun _ _ h => h
  · rcases h with h | ⟨hin, h⟩
    · exact at_state (get (fun s hs => at_state (on_timeoutCursors.post (fun _ _ hon =>
        (Turned.waited id).on hon)) hs)) h
    · exact at_state (get (fun s hs => at_state (on_timeoutCursors.post (fun _ _ hon =>
        (Turned.timedOut id hin).on hon)) hs)) h

theorem on_connCleanup : Does (On d) connCleanup (fun _ s =>
    s.o.fifo = d.left.fifo ∧ s.o.writer = (if d.writer = some d.id then none else d.writer) ∧
    s.o.group = d.group.map (fun p => if p.conn = some d.id then { p with conn := none } else p) ∧
    s.o.asked.filter Asked.marked = d.log ∧ s.o.svc = d.svc) := by
  refine get (fun s hs => at_state ?_ hs)
  have hid : s.c.id = d.id := congrArg Desk.id hs.desk
  dsimp only
  rw [hid]
  set g := d.group.map (fun p => if p.conn = some d.id then { p with conn := none } else p) with hg
  refine Does.bind (R := fun _ => On { d with group := g }) ?_ (fun _ => on_workEnd.bind (fun _ =>
    on_txnEnd.bind (fun _ => get (fun s₁ h₁ => at_state (Does.bind (R := fun _ => On (Desk.ended
      (if d.work.isSome then { d with group := g }.idled else { d with group := g }))) (on_quiet ?_ ?_) (fun _ =>
        on_freeAll.bind (fun _ => on_leaveQueue.bind (fun _ => (on_conn (fun x => { x with reqs := [] }) ?_ ?_).post
          (fun _ s₂ h₂ => ?_))))) h₁))))
  · refine on_shared (fun x =>
      { x with group := x.group.map (fun p => if p.conn = some d.id then { p with conn := none } else p) }) ?_
    exact fun _ => rfl
  · exact fun _ => rfl
  · exact fun _ => List.nil_subset _
  · exact fun _ => rfl
  · exact fun _ _ h => h
  · generalize hx : (if d.work.isSome then Desk.idled { d with group := g } else { d with group := g }) = x at h₂
    have hsame : x.id = d.id ∧ x.queued = d.queued ∧ x.fifo = d.fifo ∧ x.writer = d.writer ∧ x.group = g ∧
        x.log = d.log ∧ x.svc = d.svc := by
      rw [← hx]
      split_ifs <;> exact ⟨rfl, rfl, rfl, rfl, rfl, rfl, rfl⟩
    obtain ⟨hxid, hxq, hxf, hxw, hxg, hxl, hxs⟩ := hsame
    have hfifo : s₂.o.fifo = x.ended.left.fifo := congrArg Desk.fifo h₂.desk
    have hwriter : s₂.o.writer = x.ended.left.writer := congrArg Desk.writer h₂.desk
    have hgroup : s₂.o.group = x.ended.left.group := congrArg Desk.group h₂.desk
    have hlog : s₂.o.asked.filter Asked.marked = x.ended.left.log := congrArg Desk.log h₂.desk
    have hsvc : s₂.o.svc = x.ended.left.svc := congrArg Desk.svc h₂.desk
    rw [Desk.left_fifo] at hfifo ⊢
    rw [Desk.left_writer] at hwriter
    rw [Desk.left_group] at hgroup
    rw [Desk.left_log] at hlog
    rw [Desk.left_svc] at hsvc
    refine ⟨?_, ?_, hgroup.trans hxg, hlog.trans hxl, hsvc.trans hxs⟩
    · rw [hfifo, ← hxid, ← hxq, ← hxf]
      rfl
    · rw [hwriter, ← hxid, ← hxw]
      rfl

/-! ## The connections -/

theorem Handled.id {r : Req} {q : Outcome} {d' : Desk} (h : Handled d r q d') : d'.id = d.id := by
  cases h with
  | parked =>
    rw [Desk.joined]
    split_ifs <;> rfl
  | wroteAlone _ _ _ _ _ ht | committedAlone _ _ _ _ _ _ _ ht | beganWrite _ _ _ ht => exact ht.id
  | beginFailed _ _ _ ht =>
    rcases ht with ⟨-, ht⟩ | ⟨-, rfl⟩
    · exact ht.id
    · rfl
  | _ => rfl

theorem Turned.id {e : Event} {d' : Desk} (h : Turned d e d') : d'.id = d.id := by
  cases h with
  | answered _ _ _ _ _ _ _ h => exact h.id
  | kept _ _ _ _ _ _ _ _ _ h => exact h.id
  | _ => rfl

end

def Event.conn : Event → Option Nat
  | .arrives id _ | .malformed id _ | .gone id | .answer id _ | .slice id _ | .flushed id _ | .finish id
  | .timeouts id =>
    some id
  | _ => none

/-- The connections keep their numbers, have cursors of the service, and a transaction where they are in one. -/
structure State.Sane (o : State) : Prop where
  ids : (o.conns.map Conn.id).Nodup
  below : ∀ c ∈ o.conns, c.id < o.accepted
  svcs : ∀ c ∈ o.conns, ∀ k ∈ c.cursors, k.svc.isSome
  opens : ∀ c ∈ o.conns, c.tx.isOpen → c.txn.isSome

inductive Stepped (o : State) : Event → State → Prop where
  | tick (ms : Nat) : Stepped o (.tick ms) { o with sh := { o.sh with now := o.sh.now + ms } }
  | accept : Stepped o .accept { o with conns := o.conns ++ [Conn.start o.accepted], accepted := o.accepted + 1 }
  | turn (e : Event) (sh : Shared) (pre post : List Conn) (c c' : Conn) (hl : o.conns = pre ++ c :: post)
      (he : e.conn = some c.id) (hsvc : ∀ k ∈ c'.cursors, k.svc.isSome)
      (ht : Turned (desk ⟨o.sh, c⟩) e (desk ⟨sh, c'⟩)) :
      Stepped o e { o with sh := sh, conns := pre ++ c' :: post }
  | sync (st : Status) : Stepped o (.sync st) (groupSync st o)
  | reap (sh : Shared) (pre post : List Conn) (c : Conn) (hl : o.conns = pre ++ c :: post) (hd : c.dead || o.stopping)
      (hf : sh.fifo = if c.queued then o.sh.fifo.erase c.id else o.sh.fifo)
      (hw : sh.writer = if o.sh.writer = some c.id then none else o.sh.writer)
      (hg : sh.group = o.sh.group.map (fun p => if p.conn = some c.id then { p with conn := none } else p))
      (ha : sh.asked.filter Asked.marked = o.sh.asked.filter Asked.marked) (hs : sh.svc = o.sh.svc) :
      Stepped o (.reap c.id) { o with sh := sh, conns := pre ++ post }
  | stop : Stepped o .stop { o with stopping := true }

section
variable {o o' : State} {e : Event}

theorem State.Sane.on (h : o.Sane) {c : Conn} (hc : c ∈ o.conns) : On (desk ⟨o.sh, c⟩) ⟨o.sh, c⟩ := ⟨rfl, h.svcs c hc⟩

theorem State.Sane.turned (h : o.Sane) {id : Nat} {may : Conn → Bool} {m : Act Unit} (hs : o.turn id may m = some o')
    (he : e.conn = some id) (hm : ∀ c ∈ o.conns, may c = true →
      Does (On (desk ⟨o.sh, c⟩)) m (fun _ s => ∃ d', Turned (desk ⟨o.sh, c⟩) e d' ∧ On d' s)) : Stepped o e o' := by
  unfold State.turn at hs
  split at hs
  · cases hs
  rename_i c hfind
  split_ifs at hs with hmay
  cases hs
  obtain ⟨pre, post, hl, hid, hset⟩ := find_conn hfind
  have hc : c ∈ o.conns := List.mem_of_find?_eq_some hfind
  obtain ⟨d', ht, hon⟩ := hm c hc hmay _ (h.on hc)
  set s := (m.run ⟨o.sh, c⟩).2 with hsdef
  have hon : On d' s := hon
  have hcid : s.c.id = c.id := (congrArg Desk.id hon.desk).trans ht.id
  rw [hset s.c (hcid.trans hid)]
  refine Stepped.turn e s.o pre post c s.c hl (he.trans (congrArg some hid.symm)) hon.svcs ?_
  rw [show desk ⟨s.o, s.c⟩ = d' from hon.desk]
  exact ht

/-- **Every event is one of these.** -/
theorem State.Sane.stepped (h : o.Sane) (hs : Owner.step o e = some o') : Stepped o e o' := by
  cases e with
  | tick ms =>
    cases hs
    exact .tick ms
  | accept =>
    rw [Owner.step] at hs
    split_ifs at hs
    cases hs
    exact .accept
  | arrives id r => exact h.turned hs rfl (fun c _ _ => turned_enqueue)
  | malformed id short => exact h.turned hs rfl (fun c _ _ => turned_malformed)
  | gone id =>
    refine h.turned hs rfl (fun c _ _ => (on_conn (fun x => { x with dead := true }) ?_ ?_).post (fun _ _ hon =>
      (Turned.gone id).on hon))
    · exact fun _ => rfl
    · exact fun _ _ h => h
  | answer id a =>
    refine h.turned hs rfl (fun c hc hmay => turned_processHead ?_ ?_ (h.opens c hc))
    · simp only [Conn.answers, Bool.and_eq_true, Bool.not_eq_true', Option.isNone_iff_eq_none] at hmay
      obtain ⟨-, ⟨⟨⟨hcl, hd⟩, hw⟩, ha⟩, -⟩ := hmay
      exact ⟨hcl, hd, hw, ha⟩
    · simp only [Conn.answers, Bool.and_eq_true, Bool.not_eq_true', List.isEmpty_eq_false_iff] at hmay
      exact hmay.2.2
  | slice id a => exact h.turned hs rfl (fun c _ _ => turned_workStep)
  | sync st =>
    rw [Owner.step] at hs
    split_ifs at hs
    cases hs
    exact .sync st
  | flushed id n =>
    refine h.turned hs rfl (fun c _ _ => (on_quiet ?_ ?_).post (fun _ _ hon => (Turned.flushed id n).on hon))
    · exact fun _ => rfl
    · exact fun _ _ h => h
  | finish id =>
    refine h.turned hs rfl (fun c _ _ => (on_conn (fun x => { x with dead := true }) ?_ ?_).post (fun _ _ hon =>
      (Turned.finish id).on hon))
    · exact fun _ => rfl
    · exact fun _ _ h => h
  | timeouts id => exact h.turned hs rfl (fun c _ _ => turned_timeoutConn)
  | reap id =>
    rw [Owner.step] at hs
    split at hs
    · cases hs
    rename_i c hfind
    split_ifs at hs with hd
    cases hs
    obtain ⟨pre, post, hl, rfl, -⟩ := find_conn hfind
    have hc : c ∈ o.conns := List.mem_of_find?_eq_some hfind
    obtain ⟨hf, hw, hg, ha, hsvc⟩ := on_connCleanup _ (h.on hc)
    rw [Desk.left_fifo] at hf
    have hconns : o.conns.filter (fun d => d.id ≠ c.id) = pre ++ post := by
      have hids := h.ids
      rw [hl, map_append, map_cons] at hids
      have hnodup := (List.perm_middle.nodup_iff).1 hids
      rw [nodup_cons, ← map_append] at hnodup
      rw [hl, List.filter_append, List.filter_cons_of_neg (by simp), ← List.filter_append, List.filter_eq_self]
      intro x hx
      simpa using fun he => hnodup.1 (mem_map.2 ⟨x, hx, he⟩)
    rw [hconns]
    exact .reap _ pre post c hl hd hf hw hg ha hsvc
  | stop =>
    cases hs
    exact .stop

/-! ## Sanity kept -/

theorem Took.same {d d₁ : Desk} (h : Took d d₁) : ∃ fifo queued, d₁ = { d with fifo := fifo, queued := queued } := by
  cases h with
  | mine => exact ⟨d.fifo, d.queued, rfl⟩
  | free =>
    rw [Desk.left]
    split_ifs
    · exact ⟨_, _, rfl⟩
    · exact ⟨d.fifo, d.queued, rfl⟩

theorem Handled.opens {d d' : Desk} {r : Req} {q : Outcome} (h : Handled d r q d') (hd : d.tx.isOpen → d.txn.isSome) :
    d'.tx.isOpen → d'.txn.isSome := by
  cases h with
  | parked =>
    rw [Desk.joined]
    split_ifs <;> exact hd
  | wroteAlone _ _ _ _ _ ht | committedAlone _ _ _ _ _ _ _ ht =>
    obtain ⟨_, _, rfl⟩ := ht.same
    exact hd
  | beganRead | beganWrite => exact fun _ => rfl
  | beginFailed _ _ hnone ht =>
    have hnot : ¬ d.tx.isOpen := by
      rw [hnone, Tx.isOpen]
      decide
    rcases ht with ⟨-, ht⟩ | ⟨-, rfl⟩
    · obtain ⟨_, _, rfl⟩ := ht.same
      exact fun h => absurd h hnot
    · exact fun h => absurd h hnot
  | failedInside | acknowledged | levelFailed | ended | committed => exact fun h => by rcases h with h | h <;> cases h
  | _ => exact hd

theorem Turned.opens {d d' : Desk} (h : Turned d e d') (hd : d.tx.isOpen → d.txn.isSome) :
    d'.tx.isOpen → d'.txn.isSome := by
  cases h with
  | answered _ _ _ _ _ _ _ h | kept _ _ _ _ _ _ _ _ _ h => exact h.opens hd
  | gaveUp | timedOut => exact fun h => by rcases h with h | h <;> cases h
  | _ => exact hd

theorem Turned.log_same {d d' : Desk} (h : Turned d e d') (he : ∀ id a, e ≠ .answer id a) : d'.log = d.log := by
  cases h with
  | answered id a | kept id a => exact absurd rfl (he id a)
  | _ => rfl

theorem delivered (st : Status) : ∀ (l : List Pend) (c : Conn),
    ∃ out awaiting, l.foldl (deliver st) c = { c with out := out, awaiting := awaiting }
  | [], c => ⟨c.out, c.awaiting, rfl⟩
  | p :: l, c => by
    obtain ⟨out, awaiting, h⟩ := delivered st l (deliver st c p)
    refine ⟨out, awaiting, ?_⟩
    rw [List.foldl_cons, h, deliver]
    split_ifs <;> rfl

theorem mem_synced {st : Status} {c : Conn} (hc : c ∈ (groupSync st o).conns) :
    ∃ b ∈ o.conns, ∃ out awaiting, c = { b with out := out, awaiting := awaiting } := by
  obtain ⟨b, hb, rfl⟩ := mem_map.1 hc
  obtain ⟨out, awaiting, h⟩ := delivered st o.sh.group b
  exact ⟨b, hb, out, awaiting, h⟩

theorem map_synced {α : Type} {f : Conn → α} (hf : ∀ (c : Conn) out awaiting,
      f { c with out := out, awaiting := awaiting } = f c)
    (st : Status) : (groupSync st o).conns.map f = o.conns.map f := by
  show (o.conns.map _).map f = _
  rw [List.map_map]
  refine List.map_congr_left (fun c _ => ?_)
  obtain ⟨out, awaiting, h⟩ := delivered st o.sh.group c
  show f (o.sh.group.foldl (deliver st) c) = f c
  rw [h, hf]

theorem mem_turned {pre post : List Conn} {c c' d : Conn} (hl : o.conns = pre ++ c :: post)
    (hd : d ∈ pre ++ c' :: post) : d = c' ∨ d ∈ o.conns := by
  rw [hl]
  rcases mem_append.1 hd with hd | hd
  · exact .inr (List.mem_append_left _ hd)
  · rcases List.mem_cons.1 hd with rfl | hd
    · exact .inl rfl
    · exact .inr (List.mem_append_right _ (List.mem_cons_of_mem _ hd))

theorem eq_of_id (h : o.Sane) {c d : Conn} (hc : c ∈ o.conns) (hd : d ∈ o.conns) (hid : c.id = d.id) : c = d :=
  List.inj_on_of_nodup_map h.ids hc hd hid

theorem State.Sane.others (h : o.Sane) {pre post : List Conn} {c : Conn} (hl : o.conns = pre ++ c :: post) :
    ∀ d ∈ pre ++ post, d ∈ o.conns ∧ d.id ≠ c.id := by
  intro d hd
  refine ⟨by rw [hl]; exact mem_middle hd, fun he => ?_⟩
  have hids := h.ids
  rw [hl, map_append, map_cons] at hids
  have hnodup := (List.perm_middle.nodup_iff).1 hids
  rw [nodup_cons, ← map_append] at hnodup
  exact hnodup.1 (mem_map.2 ⟨d, hd, he⟩)

theorem State.Sane.step (h : o.Sane) (hs : Owner.step o e = some o') : o'.Sane := by
  cases h.stepped hs with
  | tick | stop => exact ⟨h.ids, h.below, h.svcs, h.opens⟩
  | accept =>
    refine ⟨?_, fun c hc => ?_, fun c hc => ?_, fun c hc => ?_⟩
    · show ((o.conns ++ [Conn.start o.accepted]).map Conn.id).Nodup
      rw [map_append, List.map_singleton, List.nodup_append]
      refine ⟨h.ids, List.nodup_singleton _, fun x hx y hy => ?_⟩
      obtain ⟨c, hc, rfl⟩ := mem_map.1 hx
      rw [mem_singleton.1 hy]
      exact Nat.ne_of_lt (h.below c hc)
    · rcases mem_append.1 hc with hc | hc
      · exact Nat.lt_succ_of_lt (h.below c hc)
      · rw [mem_singleton.1 hc]
        exact Nat.lt_succ_self _
    · rcases mem_append.1 hc with hc | hc
      · exact h.svcs c hc
      · rw [mem_singleton.1 hc]
        exact fun k hk => by cases hk
    · rcases mem_append.1 hc with hc | hc
      · exact h.opens c hc
      · rw [mem_singleton.1 hc]
        exact fun hx => by rcases hx with hx | hx <;> cases hx
  | turn _ sh pre post c c' hl he hsvc ht =>
    have hc : c ∈ o.conns := by rw [hl]; simp
    have hid : c'.id = c.id := ht.id
    refine ⟨?_, fun d hd => ?_, fun d hd => ?_, fun d hd => ?_⟩
    · have hids := h.ids
      rw [hl, map_append, map_cons, ← hid, ← map_cons, ← map_append] at hids
      exact hids
    · rcases mem_turned hl hd with rfl | hd
      · rw [hid]
        exact h.below c hc
      · exact h.below d hd
    · rcases mem_turned hl hd with rfl | hd
      · exact hsvc
      · exact h.svcs d hd
    · rcases mem_turned hl hd with rfl | hd
      · exact ht.opens (h.opens c hc)
      · exact h.opens d hd
  | sync st =>
    refine ⟨?_, fun c hc => ?_, fun c hc => ?_, fun c hc => ?_⟩
    · rw [map_synced (fun _ _ _ => rfl)]
      exact h.ids
    · obtain ⟨b, hb, out, awaiting, rfl⟩ := mem_synced hc
      exact h.below b hb
    · obtain ⟨b, hb, out, awaiting, rfl⟩ := mem_synced hc
      exact h.svcs b hb
    · obtain ⟨b, hb, out, awaiting, rfl⟩ := mem_synced hc
      exact h.opens b hb
  | reap sh pre post c hl =>
    have hmem : ∀ d ∈ pre ++ post, d ∈ o.conns := fun d hd => by rw [hl]; exact mem_middle hd
    refine ⟨?_, fun d hd => h.below d (hmem d hd), fun d hd => h.svcs d (hmem d hd), fun d hd => h.opens d (hmem d hd)⟩
    have hids := h.ids
    rw [hl, map_append, map_cons] at hids
    have hnodup := (List.perm_middle.nodup_iff).1 hids
    rw [nodup_cons, ← map_append] at hnodup
    exact hnodup.2

theorem Runs.sane {P : State → Event → Prop} {svc : Option Service} {opt : Options} (h : Runs P svc opt o) :
    o.Sane := by
  induction h with
  | start =>
    refine ⟨List.nodup_nil, fun _ h => ?_, fun _ h => ?_, fun _ h => ?_⟩
    · cases h
    · cases h
    · cases h
  | step _ e _ hs ih => exact ih.step hs

end

end Owner
end Gbasic
