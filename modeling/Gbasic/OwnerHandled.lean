import Gbasic.OwnerDesk
/-!
# OwnerHandled — every way a request ends

A request of a connection is answered, held for a sync, parked, or left working (`Handled`); each way says what it found
and what it leaves at the desk.  What holds of every run of requests is shown of each of them.
-/
namespace Gbasic
namespace Owner

open Lsm (Status)
open Key (Bytes)
open Does (ite each at_state get)

variable {q : Statement} {d₁ : Desk} {t : Nat} {write : Bool}

/-- The commit a reply reports. -/
def Reply.commit : Reply → Option Commit
  | .done _ c _ => c
  | _ => none

/-- Whether a request of a connection with no transaction must have the writer's turn. -/
def Req.writer (svc : Option Service) (r : Req) : Bool :=
  match r.type with
  | .begin => (r.textOf "mode").map cString == some (text "write")
  | .query => (r.field "statement").isSome && svc.isSome && !(r.bool "describe").getD false &&
      (match r.writes with | .ok w => w | .error _ => false)
  | _ => false

structure Desk.Waits (d : Desk) (r : Req) : Prop where
  hello : d.hello = true
  tx : d.tx = .none
  writer : r.writer d.svc = true

def Tx.isOpen (t : Tx) : Prop := t = .read ∨ t = .write

def Tx.isGone (t : Tx) : Prop := t = .failed ∨ t = .timedOut

def Alone (id t : Nat) (x : Asked) : Prop :=
  (∃ q, x = .ran id t true q) ∨ x = .began ⟨t, true⟩ ∨ ∃ b st, x = .committed t b st

/-- What ends a transaction for its client. -/
def Msg.closes (m : Msg) : Prop := m = .commit ∨ m = .rollback

inductive Handled (d : Desk) (r : Req) : Outcome → Desk → Prop where
  /-- Answered, and nothing else changed. -/
  | replied (rep : Reply) (hw : ¬ d.Waits r) (hc : rep.commit = none) (hb : r.type = .begin → rep.isDone = false)
      (hq : r.type = .query → ∃ e, rep = .error e) (he : r.type.closes → d.tx = .none) :
      Handled d r .done (d.replies r.id rep)
  | greeted (rep : Reply) (hh : d.hello = false) (hc : rep.commit = none) (ht : r.type = .hello) :
      Handled d r .done ({ d with hello := true }.replies r.id rep)
  /-- The connection closes. -/
  | refused (code : Code) (m : Bytes) (hh : d.hello = false) :
      Handled d r .done { d.replies r.id (.refused code m) with closing := true }
  | bye (ht : r.type = .bye) : Handled d r .done { d with closing := true }
  | parked (hw : d.Waits r) (hm : d.writer ≠ some d.id) : Handled d r .parked d.joined
  /-- A statement that writes, with a transaction of its own. -/
  | wroteAlone (d₁ : Desk) (t : Nat) (lg : List Asked) (rep : Reply) (hw : d.Waits r) (ht : Took d d₁)
      (hl : ∀ x ∈ lg, Alone d.id t x) (hc : rep.commit = none) (hq : r.type = .query) :
      Handled d r .done ({ d₁ with log := lg ++ d₁.log }.replies r.id rep)
  | committedAlone (d₁ : Desk) (t n : Nat) (affected : Option Nat) (warnings : Bytes) (lg : List Asked) (hw : d.Waits r)
      (ht : Took d d₁) (hl : ∀ x ∈ lg, Alone d.id t x) (hc : ∃ b, .committed t b .ok ∈ lg) (hq : r.type = .query) :
      Handled d r .done ({ d₁ with log := lg ++ d₁.log }.holds r.id (.done affected (some ⟨n, t⟩) warnings))
  /-- A statement that reads, with a snapshot of its own. -/
  | readAlone (t : Nat) (lg : List Asked) (rep : Reply) (hw : ¬ d.Waits r) (htx : d.tx = .none)
      (hl : ∀ x ∈ lg, ∃ q, x = .ran d.id t true q) (hc : rep.commit = none) (hq : r.type = .query) :
      Handled d r .done ({ d with log := lg ++ d.log }.replies r.id rep)
  | readingAlone (t k : Nat) (q : Statement) (hw : ¬ d.Waits r) (htx : d.tx = .none) (hq : r.type = .query) :
      Handled d r .working ((d.asks (.ran d.id t true q)).works k (some t) r.id)
  /-- A statement in the connection's transaction. -/
  | ranInside (t : Nat) (q : Statement) (rep : Reply) (htx : d.tx.isOpen) (ht : d.txn = some t) (hc : rep.commit = none)
      (hq : r.type = .query) : Handled d r .done ((d.asks (.ran d.id t false q)).replies r.id rep)
  | failedInside (t : Nat) (q : Statement) (e : GsqlError) (htx : d.tx.isOpen) (ht : d.txn = some t)
      (hq : r.type = .query) :
      Handled d r .done (((d.asks (.ran d.id t false q)).dropped .failed).replies r.id (.error e))
  | readingInside (t k : Nat) (q : Statement) (htx : d.tx.isOpen) (ht : d.txn = some t) (hq : r.type = .query) :
      Handled d r .working ((d.asks (.ran d.id t false q)).works k none r.id)
  /-- A BEGIN with no transaction open. -/
  | beganRead (t : Nat) (hw : ¬ d.Waits r) (htx : d.tx = .none) (hb : r.type = .begin) :
      Handled d r .done ({ d with tx := .read, txn := some t }.replies r.id (.done none none []))
  | beganWrite (d₁ : Desk) (t : Nat) (hw : d.Waits r) (ht : Took d d₁) (hb : r.type = .begin) :
      Handled d r .done ({ d₁.asks (.began ⟨t, true⟩) with
        tx := .write, txn := some t, writer := some d.id }.replies r.id
        (.done none none []))
  | beginFailed (d₁ : Desk) (e : GsqlError) (htx : d.tx = .none) (ht : d.Waits r ∧ Took d d₁ ∨ ¬ d.Waits r ∧ d₁ = d)
      (hb : r.type = .begin) : Handled d r .done ({ d₁ with txn := none }.replies r.id (.error e))
  | nested (htx : d.tx.isOpen) (hb : r.type = .begin) :
      Handled d r .done ({ d with depth := d.depth + 1 }.replies r.id (.done none none []))
  /-- A COMMIT or ROLLBACK of a transaction the engine has ended: every level of it goes. -/
  | acknowledged (rep : Reply) (htx : d.tx.isGone) (hc : rep.commit = none) (he : r.type.closes) :
      Handled d r .done (d.ended.replies r.id rep)
  | levelEnded (htx : d.tx.isOpen) (hd : 0 < d.depth) (he : r.type.closes) :
      Handled d r .done ({ d with depth := d.depth - 1 }.replies r.id (.done none none []))
  | levelFailed (e : GsqlError) (htx : d.tx.isOpen) (hd : 0 < d.depth) (he : r.type.closes) :
      Handled d r .done (({ d with depth := d.depth - 1 }.dropped .failed).replies r.id (.error e))
  | ended (lg : List Asked) (rep : Reply) (htx : d.tx.isOpen) (hd : d.depth = 0) (hl : ∀ x ∈ lg, ∃ t b st,
      x = .committed t b st)
      (hc : rep.commit = none) (he : r.type.closes) :
      Handled d r .done ({ d.ended with log := lg ++ d.log }.replies r.id rep)
  | committed (t n : Nat) (htx : d.tx.isOpen) (hd : d.depth = 0) (he : r.type.closes) :
      Handled d r .done ((d.ended.asks (.committed t false .ok)).holds r.id (.done none (some ⟨n, t⟩) []))

section
variable {d : Desk} {r : Req} {a : Answers}

def Ends (d : Desk) (r : Req) (q : Outcome) (s : Turn) : Prop := ∃ d', Handled d r q d' ∧ On d' s

theorem Handled.ends {q : Outcome} {d' : Desk} {s : Turn} (h : Handled d r q d') (hs : On d' s) : Ends d r q s :=
  ⟨d', h, hs⟩

theorem handled_error {e : GsqlError} (hw : ¬ d.Waits r) (he : r.type.closes → d.tx = .none) :
    Handled d r .done (d.replies r.id (.error e)) :=
  .replied _ hw rfl (fun _ => rfl) (fun _ => ⟨e, rfl⟩) he

theorem ends_error {code : Code} {m : Bytes} (hw : ¬ d.Waits r) (he : r.type.closes → d.tx = .none) :
    Does (On d) (sendError r.id code m) (fun _ => Ends d r .done) :=
  on_sendError.post (fun _ _ ⟨_, h⟩ => (handled_error hw he).ends h)

/-! ## Statements -/

theorem ends_endWrite {ran : Ran} (hw : d.Waits r) (ht : Took d d₁) (hq : r.type = .query)
    (hr : ∀ k, ran ≠ .working k) : Does (On ((d₁.asks (.began ⟨t, true⟩)).asks (.ran d.id t true q)))
      (endWrite a r.id t ran) (Ends d r) := by
  have hran : ∀ x ∈ [Asked.ran d.id t true q, .began ⟨t, true⟩], Alone d.id t x := by
    intro x hx
    rcases List.mem_cons.1 hx with rfl | hx
    · exact .inl ⟨q, rfl⟩
    · exact .inr (.inl (List.mem_singleton.1 hx))
  have hcommitted : ∀ b, ∀ x ∈ [Asked.committed t b a.commits, .ran d.id t true q, .began ⟨t, true⟩],
      Alone d.id t x := by
    intro b x hx
    rcases List.mem_cons.1 hx with rfl | hx
    · exact .inr (.inr ⟨b, _, rfl⟩)
    · exact hran x hx
  -- what a commit that failed answers, and one that did not
  have hsent : ∀ b affected warnings, Does (On (((d₁.asks (.began ⟨t, true⟩)).asks (.ran d.id t true q)).asks
      (.committed t b a.commits))) (sendCommitted a r.id t affected warnings) (fun _ => Ends d r .done) := by
    intro b affected warnings
    refine on_sendCommitted.post (fun _ s h => ?_)
    rcases h with ⟨hok, h⟩ | ⟨-, e, h⟩
    · refine (Handled.committedAlone d₁ t a.commitNumber affected warnings _ hw ht (hcommitted b) ⟨b, ?_⟩ hq).ends h
      rw [hok]
      exact List.mem_cons_self
    · exact (Handled.wroteAlone d₁ t _ (.error e) hw ht (hcommitted b) rfl hq).ends h
  cases ran with
  | refused e partWay =>
    refine (on_ask rfl).bind (fun _ => on_outFrame.bind (fun _ => Does.pure (fun _ h => ?_)))
    exact (Handled.wroteAlone d₁ t _ (.error e) hw ht hran rfl hq).ends h
  | working k => exact absurd rfl (hr k)
  | rows body k =>
    refine on_closeSvc.bind (fun _ => ?_)
    refine Does.bind (R := fun st s => st = a.commits ∧
      On (((d₁.asks (.began ⟨t, true⟩)).asks (.ran d.id t true q)).asks
      (.committed t true a.commits)) s) ?_ (fun st => ?_)
    · exact (on_mark rfl).bind (fun _ => Does.pure (fun _ h => ⟨rfl, h⟩))
    · dsimp only
      refine Does.pre (I := On (((d₁.asks (.began ⟨t, true⟩)).asks (.ran d.id t true q)).asks
        (.committed t true a.commits))) ?_ (fun _ h => h.2)
      refine ite (fun _ => ?_) (fun _ => (hsent true none []).bind (fun _ => Does.pure (fun _ h => h)))
      refine on_sendRows.bind (fun _ => Does.pure (fun s ⟨cursor, h⟩ => ?_))
      exact (Handled.wroteAlone d₁ t _ (.rows cursor body) hw ht (hcommitted true) rfl hq).ends h
  | done affected warnings =>
    refine Does.bind (R := fun _ => On (((d₁.asks (.began ⟨t, true⟩)).asks (.ran d.id t true q)).asks
      (.committed t false a.commits))) ?_ (fun _ => ?_)
    · exact (on_mark rfl).bind (fun _ => Does.pure (fun _ h => h))
    · exact (hsent false affected warnings).bind (fun _ => Does.pure (fun _ h => h))

theorem Took.id (h : Took d d₁) : d₁.id = d.id := by
  cases h with
  | mine => rfl
  | free =>
    rw [Desk.left]
    split_ifs <;> rfl

theorem ends_queryWrite (hs : q.sliced = false) (hw : d.Waits r) (hq : r.type = .query) :
    Does (On d) (queryWrite a r q) (Ends d r) := by
  refine on_writerTake.bind (fun b => ?_)
  cases b with
  | false =>
    refine ite (fun _ => Does.pure (fun _ h => ?_)) (fun h => absurd rfl h)
    exact (Handled.parked hw (h.2 rfl).1).ends (h.2 rfl).2
  | true =>
    refine ite (fun h => absurd h (by decide)) (fun _ => each (fun s h => ?_))
    obtain ⟨d₁, ht, hon⟩ := h.1 rfl
    refine at_state (on_beginTxn.bind (fun o => ?_)) hon
    cases o with
    | none =>
      refine on_sendError.bind (fun _ => Does.pure (fun _ ⟨e, h⟩ => ?_))
      exact (Handled.wroteAlone d₁ 0 [] (.error e) hw ht (fun x hx => by cases hx) rfl hq).ends h
    | some t =>
      refine on_runStatement.bind (fun ran => each (fun s₂ h₂ => ?_))
      refine at_state (ends_endWrite (q := { q with batch := 2 ^ 32 - 1 }) hw ht hq (fun k hk => ?_)) ?_
      · have := h₂.2 k hk
        rw [show ({ q with batch := 2 ^ 32 - 1 } : Statement).sliced = q.sliced from rfl, hs] at this
        cases this
      · have hid : (if true = true then d₁.asks (.began ⟨t, true⟩) else d₁).id = d.id := ht.id
        have hon₂ := h₂.1
        rw [hid] at hon₂
        exact hon₂

theorem ends_endRead {ran : Ran} (hw : ¬ d.Waits r) (htx : d.tx = .none) (hq : r.type = .query) :
    Does (On (d.asks (.ran d.id t true q))) (endRead r.id t ran) (Ends d r) := by
  have hlog : ∀ x ∈ [Asked.ran d.id t true q], ∃ q, x = .ran d.id t true q :=
    fun x hx => ⟨q, List.mem_singleton.1 hx⟩
  cases ran with
  | refused e partWay =>
    refine (on_ask rfl).bind (fun _ => on_outFrame.bind (fun _ => Does.pure (fun _ h => ?_)))
    exact (Handled.readAlone t _ (.error e) hw htx hlog rfl hq).ends h
  | working k =>
    exact on_setWork.bind (fun _ => Does.pure (fun _ h => (Handled.readingAlone t k q hw htx hq).ends h))
  | rows body k =>
    refine on_sendRows.bind (fun _ => Does.pure (fun _ ⟨cursor, h⟩ => ?_))
    exact (Handled.readAlone t _ (.rows cursor body) hw htx hlog rfl hq).ends h
  | done affected warnings =>
    refine (on_ask rfl).bind (fun _ => on_outFrame.bind (fun _ => Does.pure (fun _ h => ?_)))
    exact (Handled.readAlone t _ (.done affected none warnings) hw htx hlog rfl hq).ends h

theorem ends_queryRead (hw : ¬ d.Waits r) (htx : d.tx = .none) (hq : r.type = .query) :
    Does (On d) (queryRead a r q) (Ends d r) := by
  refine on_beginTxn.bind (fun o => ?_)
  cases o with
  | none =>
    refine on_sendError.bind (fun _ => Does.pure (fun _ ⟨e, h⟩ => ?_))
    exact (Handled.readAlone 0 [] (.error e) hw htx (fun x hx => by cases hx) rfl hq).ends h
  | some t =>
    refine on_runStatement.bind (fun ran => each (fun s h => ?_))
    exact at_state (ends_endRead hw htx hq) h.1

theorem on_queryUndo {marked partWay : Bool} {e : GsqlError} : Does (On d) (queryUndo a t marked e partWay)
    (fun _ s => On d s ∨ On (d.dropped .failed) s) := by
  have hmark : (if e.code = .storage then Asked.release t else .rollback t).marked = false := by
    split_ifs <;> rfl
  refine (on_askIf hmark).bind (fun _ => ite (fun _ => on_txnFailed.post (fun _ _ h => .inr h)) (fun _ => ?_))
  exact ite (fun _ => on_txnFailed.post (fun _ _ h => .inr h)) (fun _ => Does.pure (fun _ h => .inl h))

theorem ends_queryInside {w : Bool} (htx : d.tx.isOpen) (ht : d.txn = some t) (hq : r.type = .query) :
    Does (On d) (queryInside a r q w t) (Ends d r) := by
  refine get (fun s hs => at_state ((on_askIf rfl).bind (fun _ => on_runStatement.bind (fun ran => ?_))) hs)
  refine Does.pre (I := On (d.asks (.ran d.id t false q))) ?_ (fun _ h => h.1)
  cases ran with
  | refused e partWay =>
    refine on_queryUndo.bind (fun _ => each (fun s₁ h₁ => ?_))
    rcases h₁ with h₁ | h₁
    · refine at_state (on_outFrame.bind (fun _ => Does.pure (fun _ h => ?_))) h₁
      exact (Handled.ranInside t q (.error e) htx ht rfl hq).ends h
    · refine at_state (on_outFrame.bind (fun _ => Does.pure (fun _ h => ?_))) h₁
      exact (Handled.failedInside t q e htx ht hq).ends h
  | working k =>
    refine (on_askIf rfl).bind (fun _ => on_setWork.bind (fun _ => Does.pure (fun _ h => ?_)))
    exact (Handled.readingInside t k q htx ht hq).ends h
  | rows body k =>
    refine (on_askIf rfl).bind (fun _ => on_sendRows.bind (fun _ => Does.pure (fun _ ⟨cursor, h⟩ => ?_)))
    exact (Handled.ranInside t q (.rows cursor body) htx ht rfl hq).ends h
  | done affected warnings =>
    refine (on_askIf rfl).bind (fun _ => on_outFrame.bind (fun _ => Does.pure (fun _ h => ?_)))
    exact (Handled.ranInside t q (.done affected none warnings) htx ht rfl hq).ends h

theorem ends_queryIn {w : Bool} (hs : w = true → q.sliced = false) (hq : r.type = .query)
    (hopen : d.tx.isOpen → d.txn.isSome) (hgone : ¬ d.tx.isGone) (hw : d.Waits r ↔ w = true ∧ d.tx = .none) :
    Does (On d) (queryIn a r q w) (Ends d r) := by
  have hcloses : r.type.closes → d.tx = .none := fun h => by rcases h with h | h <;> rw [hq] at h <;> cases h
  refine get (fun s hs₁ => at_state ?_ hs₁)
  have htx : s.c.tx = d.tx := congrArg Desk.tx hs₁.desk
  have htxn : s.c.txn = d.txn := congrArg Desk.txn hs₁.desk
  dsimp only
  rw [htx, htxn]
  refine ite (fun hro => ?_) (fun _ => ite (fun hnone => ?_) (fun hsome => ?_))
  · rw [Bool.and_eq_true, decide_eq_true_eq] at hro
    have hnot : ¬ d.Waits r := fun h => absurd ((hw.1 h).2.symm.trans hro.2) (by decide)
    exact (ends_error hnot hcloses).bind (fun _ => Does.pure (fun _ h => h))
  · refine ite (fun hwr => ends_queryWrite (hs hwr) (hw.2 ⟨hwr, hnone⟩) hq) (fun hwr => ?_)
    exact ends_queryRead (fun h => hwr (hw.1 h).1) hnone hq
  · have hin : d.tx.isOpen := by
      rw [Tx.isGone, not_or] at hgone
      rw [Tx.isOpen]
      cases h : d.tx <;> simp_all
    obtain ⟨t, ht⟩ := Option.isSome_iff_exists.1 (hopen hin)
    rw [ht]
    exact ends_queryInside hin ht hq

theorem ends_unlessRefused {m : Act Outcome} (hcloses : r.type.closes → d.tx = .none)
    (hm : ¬ d.tx.isGone → Does (On d) m (Ends d r)) :
    Does (On d) (do if ← txnRefuses r.id then return .done else m) (Ends d r) := by
  refine on_txnRefuses.bind (fun b => ?_)
  cases b with
  | true =>
    refine ite (fun _ => Does.pure (fun _ h => ?_)) (fun h => absurd rfl h)
    obtain ⟨hgone, e, hon⟩ := h.1 rfl
    refine (handled_error (fun hw => ?_) hcloses).ends hon
    rcases hgone with hgone | hgone <;> rw [hw.tx] at hgone <;> cases hgone
  | false =>
    refine ite (fun h => absurd h (by decide)) (fun _ => each (fun s₁ h₁ => ?_))
    obtain ⟨hf, hto, hon⟩ := h₁.2 rfl
    exact at_state (hm (fun h => h.elim hf hto)) hon

/-- **A QUERY.** -/
theorem ends_doQuery (hh : d.hello = true) (hq : r.type = .query) (hopen : d.tx.isOpen → d.txn.isSome) :
    Does (On d) (doQuery a r) (Ends d r) := by
  have hcloses : r.type.closes → d.tx = .none := fun h => by rcases h with h | h <;> rw [hq] at h <;> cases h
  have hreq : r.writer d.svc = ((r.field "statement").isSome && d.svc.isSome && !(r.bool "describe").getD false &&
      (match r.writes with | .ok w => w | .error _ => false)) := by rw [Req.writer, hq]
  refine get (fun s hs => at_state ?_ hs)
  have hsvc : s.o.svc = d.svc := congrArg Desk.svc hs.desk
  rw [hsvc]
  rcases hst : r.field "statement" with _ | stmt
  · refine (ends_error (fun h => ?_) hcloses).bind (fun _ => Does.pure (fun _ h => h))
    have := h.writer
    rw [hreq, hst] at this
    cases this
  rcases hsv : d.svc with _ | svc
  · refine (ends_error (fun h => ?_) hcloses).bind (fun _ => Does.pure (fun _ h => h))
    have := h.writer
    rw [hreq, hst, hsv] at this
    cases this
  refine ends_unlessRefused hcloses (fun hgone => ?_)
  rcases hwr : r.writes with e | writes
  · refine on_outFrame.bind (fun _ => Does.pure (fun _ h => (handled_error (e := e) (fun hw => ?_) hcloses).ends h))
    have := hw.writer
    rw [hreq, hst, hsv, hwr] at this
    simp at this
  · refine ends_queryIn (fun hw => ?_) hq hopen hgone ?_
    · simp [statementOf, hw]
    · constructor
      · refine fun hw => ⟨?_, hw.tx⟩
        have := hw.writer
        rw [hreq, hst, hsv, hwr] at this
        simp only [Option.isSome_some, Bool.true_and, Bool.and_eq_true] at this
        rw [Bool.and_eq_true]
        exact ⟨this.2, this.1⟩
      · rintro ⟨hw, htx⟩
        refine ⟨hh, htx, ?_⟩
        rw [Bool.and_eq_true] at hw
        rw [hreq, hst, hsv, hwr]
        simp [hw.1, hw.2]

/-! ## Transactions -/

theorem ends_beginNested (htx : d.tx.isOpen) (hopen : d.tx.isOpen → d.txn.isSome) (hb : r.type = .begin) :
    Does (On d) (beginNested a r write) (fun _ => Ends d r .done) := by
  have hcloses : r.type.closes → d.tx = .none := fun h => by rcases h with h | h <;> rw [hb] at h <;> cases h
  have hnot : ¬ d.Waits r := fun h => by
    rw [Tx.isOpen, h.tx] at htx
    rcases htx with htx | htx <;> cases htx
  have hdeeper : Does (On d) (do onConn fun c => { c with depth := c.depth + 1 }; sendDone r.id none none [])
      (fun _ => Ends d r .done) := by
    refine Does.bind (R := fun _ => On { d with depth := d.depth + 1 }) ?_ (fun _ =>
      on_outFrame.post (fun _ _ h => (Handled.nested htx hb).ends h))
    refine on_conn (fun x => { x with depth := x.depth + 1 }) ?_ ?_
    · exact fun _ => rfl
    · exact fun _ _ h => h
  obtain ⟨t, ht⟩ := Option.isSome_iff_exists.1 (hopen htx)
  refine get (fun s hs => at_state ?_ hs)
  have hstx : s.c.tx = d.tx := congrArg Desk.tx hs.desk
  have htxn : s.c.txn = d.txn := congrArg Desk.txn hs.desk
  dsimp only
  rw [hstx, htxn, ht]
  rcases htx with hr | hwr
  · rw [hr]
    exact ite (fun _ => ends_error hnot hcloses) (fun _ => hdeeper)
  · rw [hwr]
    refine (on_ask rfl).bind (fun _ => ite (fun _ => hdeeper) (fun _ => ?_))
    exact ends_error hnot hcloses

theorem ends_beginOutermost (htx : d.tx = .none) (hb : r.type = .begin) (hw : d.Waits r ↔ write = true)
    (ht : write = true ∧ Took d d₁ ∨ write = false ∧ d₁ = d) :
    Does (On d₁) (beginOutermost a r write) (fun _ => Ends d r .done) := by
  have hid : d₁.id = d.id := by
    rcases ht with ⟨-, ht⟩ | ⟨-, rfl⟩
    · exact ht.id
    · rfl
  have htook : d.Waits r ∧ Took d d₁ ∨ ¬ d.Waits r ∧ d₁ = d := by
    rcases ht with ⟨hwr, ht⟩ | ⟨hwr, he⟩
    · exact .inl ⟨hw.2 hwr, ht⟩
    · exact .inr ⟨fun h => absurd (hw.1 h) (by rw [hwr]; decide), he⟩
  refine on_beginTxn.bind (fun o => ?_)
  cases o with
  | none =>
    refine Does.bind (R := fun _ => On { d₁ with txn := none }) ?_ (fun _ => on_sendError.post (fun _ _ ⟨e, h⟩ =>
      (Handled.beginFailed d₁ e htx htook hb).ends h))
    refine on_conn (fun x => { x with txn := none }) ?_ ?_
    · exact fun _ => rfl
    · exact fun _ _ h => h
  | some t =>
    refine get (fun s hs => at_state ?_ hs)
    have hsid : s.c.id = d.id := by
      rw [← hid]
      cases write with
      | false | true => exact congrArg Desk.id hs.desk
    rw [hsid]
    rcases ht with ⟨rfl, ht⟩ | ⟨rfl, rfl⟩
    · refine Does.bind (R := fun _ => On { d₁.asks (.began ⟨t, true⟩) with writer := some d.id }) ?_ (fun _ =>
        Does.bind (R := fun _ => On { d₁.asks (.began ⟨t, true⟩) with
          tx := .write, txn := some t, writer := some d.id })
        ?_ (fun _ => on_outFrame.post (fun _ _ h => (Handled.beganWrite d₁ t (hw.2 rfl) ht hb).ends h)))
      · refine on_shared (fun x => { x with writer := some d.id }) ?_
        exact fun _ => rfl
      · refine on_conn (fun x => { x with txn := some t, tx := .write }) ?_ ?_
        · exact fun _ => rfl
        · exact fun _ _ h => h
    · refine Does.bind (R := fun _ => On d₁) ?_ (fun _ =>
        Does.bind (R := fun _ => On { d₁ with tx := .read, txn := some t })
        ?_ (fun _ => on_outFrame.post (fun _ _ h => (Handled.beganRead t (fun h => absurd (hw.1 h) (by decide)) htx
          hb).ends h)))
      · refine on_shared (fun x => x) ?_
        exact fun _ => rfl
      · refine on_conn (fun x => { x with txn := some t, tx := .read }) ?_ ?_
        · exact fun _ => rfl
        · exact fun _ _ h => h

theorem ends_beginIn (hb : r.type = .begin) (hopen : d.tx.isOpen → d.txn.isSome) (hgone : ¬ d.tx.isGone)
    (hw : d.Waits r ↔ write = true ∧ d.tx = .none) : Does (On d) (beginIn a r write) (Ends d r) := by
  refine get (fun s hs => at_state ?_ hs)
  have htx : s.c.tx = d.tx := congrArg Desk.tx hs.desk
  rw [htx]
  refine ite (fun hsome => ?_) (fun hnone => ?_)
  · have hin : d.tx.isOpen := by
      rw [Tx.isGone, not_or] at hgone
      rw [Tx.isOpen]
      cases h : d.tx <;> simp_all
    exact (ends_beginNested hin hopen hb).bind (fun _ => Does.pure (fun _ h => h))
  · rw [not_not] at hnone
    have hiff : d.Waits r ↔ write = true := ⟨fun h => (hw.1 h).1, fun h => hw.2 ⟨h, hnone⟩⟩
    refine ite (fun hwr => on_writerTake.bind (fun b => ?_)) (fun hwr => ?_)
    · cases b with
      | false =>
        refine ite (fun _ => Does.pure (fun _ h => ?_)) (fun h => absurd rfl h)
        exact (Handled.parked (hiff.2 hwr) (h.2 rfl).1).ends (h.2 rfl).2
      | true =>
        refine ite (fun h => absurd h (by decide)) (fun _ => each (fun s₁ h₁ => ?_))
        obtain ⟨d₁, ht, hon⟩ := h₁.1 rfl
        exact at_state ((ends_beginOutermost hnone hb hiff (.inl ⟨hwr, ht⟩)).bind
          (fun _ => Does.pure (fun _ h => h))) hon
    · rw [Bool.not_eq_true] at hwr
      exact (ends_beginOutermost hnone hb hiff (.inr ⟨hwr, rfl⟩)).bind (fun _ => Does.pure (fun _ h => h))

/-- **A BEGIN.** -/
theorem ends_doBegin (hh : d.hello = true) (hb : r.type = .begin) (hopen : d.tx.isOpen → d.txn.isSome) :
    Does (On d) (doBegin a r) (Ends d r) := by
  have hcloses : r.type.closes → d.tx = .none := fun h => by rcases h with h | h <;> rw [hb] at h <;> cases h
  have hreq : r.writer d.svc = ((r.textOf "mode").map cString == some (text "write")) := by rw [Req.writer, hb]
  refine ends_unlessRefused hcloses (fun hgone => ?_)
  have hread : ∀ mode, r.textOf "mode" = some mode → cString mode ≠ text "write" → ¬ d.Waits r := by
    intro mode hmode hne hw
    have := hw.writer
    rw [hreq, hmode] at this
    simp only [Option.map_some, beq_iff_eq, Option.some.injEq] at this
    exact hne this
  rcases hmode : r.textOf "mode" with _ | mode
  · refine (ends_error (fun hw => ?_) hcloses).bind (fun _ => Does.pure (fun _ h => h))
    have := hw.writer
    rw [hreq, hmode] at this
    cases this
  refine ite (fun hm => ?_) (fun hm => ite (fun hr => ?_) (fun _ => ?_))
  · refine ends_beginIn hb hopen hgone ⟨fun h => ⟨rfl, h.tx⟩, fun h => ⟨hh, h.2, ?_⟩⟩
    rw [hreq, hmode]
    simp [hm]
  · exact ends_beginIn hb hopen hgone ⟨fun h => absurd h (hread mode hmode hm), fun h => absurd h.1 (by decide)⟩
  · exact (ends_error (hread mode hmode hm) hcloses).bind (fun _ => Does.pure (fun _ h => h))

theorem on_refused {id : Nat} (hf : d.tx = .failed) :
    Does (On d) (do let _ ← txnRefuses id; pure ()) (fun _ s => ∃ e, On (d.replies id (.error e)) s) := by
  refine on_txnRefuses.bind (fun b => Does.pure (fun _ h => ?_))
  cases b with
  | true => exact (h.1 rfl).2
  | false => exact absurd hf (h.2 rfl).1

theorem ends_commitNested (htx : d.tx.isOpen) (hopen : d.tx.isOpen → d.txn.isSome) (hd : 0 < d.depth)
    (he : r.type.closes) : Does (On d) (commitNested a r) (fun _ => Ends d r .done) := by
  refine Does.bind (R := fun _ => On d) ?_ (fun st => ?_)
  · refine get (fun s hs => at_state ?_ hs)
    have hstx : s.c.tx = d.tx := congrArg Desk.tx hs.desk
    have htxn : s.c.txn = d.txn := congrArg Desk.txn hs.desk
    obtain ⟨t, ht⟩ := Option.isSome_iff_exists.1 (hopen htx)
    dsimp only
    rw [hstx, htxn, ht]
    rcases htx with h | h
    · rw [h]
      exact Does.pure (fun _ h => h)
    · rw [h]
      exact (on_ask rfl).bind (fun _ => Does.pure (fun _ h => h))
  · refine Does.bind (R := fun _ => On { d with depth := d.depth - 1 }) ?_ (fun _ => ?_)
    · refine on_conn (fun x => { x with depth := x.depth - 1 }) ?_ ?_
      · exact fun _ => rfl
      · exact fun _ _ h => h
    · refine ite (fun _ => on_outFrame.post (fun _ _ h => (Handled.levelEnded htx hd he).ends h)) (fun _ => ?_)
      exact on_txnFailed.bind (fun _ => (on_refused rfl).post
        (fun _ _ ⟨e, h⟩ => (Handled.levelFailed e htx hd he).ends h))

theorem ends_commitOutermost (htx : d.tx.isOpen) (hd : d.depth = 0) (he : r.type.closes) :
    Does (On d) (commitOutermost a r t) (fun _ => Ends d r .done) := by
  refine on_cursorsOfTxn.bind (fun _ => ?_)
  refine Does.bind (R := fun _ => On (d.asks (.committed t false a.commits))) ?_ (fun _ => ?_)
  · exact (on_mark rfl).bind (fun _ => Does.pure (fun _ h => h))
  refine Does.bind (R := fun _ => On { d.asks (.committed t false a.commits) with txn := none }) ?_ (fun _ => ?_)
  · refine on_conn (fun x => { x with txn := none }) ?_ ?_
    · exact fun _ => rfl
    · exact fun _ _ h => h
  refine on_txnEnd.bind (fun _ => on_sendCommitted.post (fun _ _ h => ?_))
  rcases h with ⟨hok, h⟩ | ⟨-, e, h⟩
  · rw [hok] at h
    exact (Handled.committed t a.commitNumber htx hd he).ends h
  · exact (Handled.ended [.committed t false a.commits] (.error e) htx hd
      (fun x hx => ⟨t, false, _, List.mem_singleton.1 hx⟩) rfl he).ends h

/-- **A COMMIT.** -/
theorem ends_doCommit (hopen : d.tx.isOpen → d.txn.isSome) (ht : r.type = .commit) :
    Does (On d) (doCommit a r) (fun _ => Ends d r .done) := by
  have he : r.type.closes := .inl ht
  have hgone : d.tx.isGone → Does (On d) (do let _ ← txnRefuses r.id; txnEnd) (fun _ => Ends d r .done) := by
    intro hg
    refine on_txnRefuses.bind (fun b => each (fun s h => ?_))
    cases b with
    | true =>
      obtain ⟨-, e, hon⟩ := h.1 rfl
      refine at_state (on_txnEnd.post (fun _ _ h => ?_)) hon
      exact (Handled.acknowledged (.error e) hg rfl he).ends h
    | false =>
      obtain ⟨hf, hto, -⟩ := h.2 rfl
      rcases hg with hg | hg
      · exact absurd hg hf
      · exact absurd hg hto
  refine get (fun s hs => at_state ?_ hs)
  have hstx : s.c.tx = d.tx := congrArg Desk.tx hs.desk
  have htxn : s.c.txn = d.txn := congrArg Desk.txn hs.desk
  have hdepth : s.c.depth = d.depth := congrArg Desk.depth hs.desk
  dsimp only
  rw [hstx, htxn, hdepth]
  cases htx : d.tx with
  | none =>
    refine ends_error (fun h => ?_) (fun _ => htx)
    have := h.writer
    rw [Req.writer, ht] at this
    cases this
  | failed => exact hgone (.inl htx)
  | timedOut => exact hgone (.inr htx)
  | read =>
    refine ite (fun hd => ends_commitNested (.inl htx) hopen hd he) (fun hd => ?_)
    refine on_txnEnd.bind (fun _ => on_outFrame.post (fun _ _ h => ?_))
    exact (Handled.ended [] (.done none none []) (.inl htx) (by omega) (fun x hx => by cases hx) rfl he).ends h
  | write =>
    refine ite (fun hd => ends_commitNested (.inr htx) hopen hd he) (fun hd => ?_)
    obtain ⟨t, htn⟩ := Option.isSome_iff_exists.1 (hopen (.inr htx))
    rw [htn]
    exact ends_commitOutermost (.inr htx) (by omega) he

theorem ends_rollbackNested (htx : d.tx.isOpen) (hd : 0 < d.depth) (he : r.type.closes) :
    Does (On d) (rollbackNested a r t) (fun _ => Ends d r .done) := by
  have hfailed : Does (On ({ d with depth := d.depth - 1 }.dropped .failed)) (do let _ ← txnRefuses r.id; pure ())
      (fun _ => Ends d r .done) := (on_refused rfl).post (fun _ _ ⟨e, h⟩ => (Handled.levelFailed e htx hd he).ends h)
  refine on_cursorsOfTxn.bind (fun _ => (on_ask rfl).bind (fun _ => ?_))
  refine Does.bind (R := fun _ => On { d with depth := d.depth - 1 }) ?_ (fun _ => ?_)
  · refine on_conn (fun x => { x with depth := x.depth - 1 }) ?_ ?_
    · exact fun _ => rfl
    · exact fun _ _ h => h
  · refine ite (fun _ => on_outFrame.post (fun _ _ h => (Handled.levelEnded htx hd he).ends h)) (fun _ => ?_)
    exact ite (fun _ => on_txnFailed.bind (fun _ => hfailed)) (fun _ => on_txnFailed.bind (fun _ => hfailed))

/-- **A ROLLBACK.** -/
theorem ends_doRollback (hopen : d.tx.isOpen → d.txn.isSome) (ht : r.type = .rollback) :
    Does (On d) (doRollback a r) (fun _ => Ends d r .done) := by
  have he : r.type.closes := .inr ht
  have hall : d.tx.isOpen ∧ d.depth = 0 ∨ d.tx.isGone → Does (On d) (rollbackAll r) (fun _ => Ends d r .done) := by
    intro hg
    refine on_txnEnd.bind (fun _ => on_outFrame.post (fun _ _ h => ?_))
    rcases hg with ⟨hin, hd⟩ | hg
    · exact (Handled.ended [] (.done none none []) hin hd (fun x hx => by cases hx) rfl he).ends h
    · exact (Handled.acknowledged (.done none none []) hg rfl he).ends h
  refine get (fun s hs => at_state ?_ hs)
  have hstx : s.c.tx = d.tx := congrArg Desk.tx hs.desk
  have htxn : s.c.txn = d.txn := congrArg Desk.txn hs.desk
  have hdepth : s.c.depth = d.depth := congrArg Desk.depth hs.desk
  dsimp only
  rw [hstx, htxn, hdepth]
  cases htx : d.tx with
  | none =>
    refine ends_error (fun h => ?_) (fun _ => htx)
    have := h.writer
    rw [Req.writer, ht] at this
    cases this
  | failed => exact hall (.inr (.inl htx))
  | timedOut => exact hall (.inr (.inr htx))
  | write =>
    refine ite (fun hd => ?_) (fun hd => hall (.inl ⟨.inr htx, by omega⟩))
    obtain ⟨t, htn⟩ := Option.isSome_iff_exists.1 (hopen (.inr htx))
    rw [htn]
    exact ends_rollbackNested (.inr htx) hd he
  | read =>
    refine ite (fun hd => ?_) (fun hd => hall (.inl ⟨.inl htx, by omega⟩))
    refine Does.bind (R := fun _ => On { d with depth := d.depth - 1 }) ?_ (fun _ =>
      on_outFrame.post (fun _ _ h => (Handled.levelEnded (.inl htx) hd he).ends h))
    refine on_conn (fun x => { x with depth := x.depth - 1 }) ?_ ?_
    · exact fun _ => rfl
    · exact fun _ _ h => h

/-! ## The rest -/

/-- A request that neither begins, ends nor runs anything. -/
structure Req.Plain (r : Req) : Prop where
  begin : r.type ≠ .begin
  query : r.type ≠ .query
  closes : ¬ r.type.closes

theorem Req.Plain.not_waits (h : r.Plain) : ¬ d.Waits r := fun hw => by
  have hwriter := hw.writer
  have hb := h.begin
  have hq := h.query
  rw [Req.writer] at hwriter
  split at hwriter <;> simp_all

theorem handled_plain (h : r.Plain) {rep : Reply} (hc : rep.commit = none) : Handled d r .done (d.replies r.id rep) :=
  .replied rep h.not_waits hc (fun hb => absurd hb h.begin) (fun hq => absurd hq h.query) (fun he => absurd he h.closes)

theorem ends_replied (h : r.Plain) {rep : Reply} (hc : rep.commit = none) :
    Does (On d) (outFrame r.id rep) (fun _ => Ends d r .done) :=
      on_outFrame.post (fun _ _ hs => (handled_plain h hc).ends hs)

theorem on_cursorId (h : r.Plain) : Does (On d) (cursorId r) (fun o s => match o with
    | none => Ends d r .done s
    | some _ => On d s) := by
  unfold cursorId
  rcases r.u64 "cursor" with _ | id
  · exact (ends_replied h rfl).bind (fun _ => Does.pure (fun _ hs => hs))
  · exact Does.pure (fun _ hs => hs)

theorem ends_cursorMissing {id : Nat} (h : r.Plain) :
    Does (On d) (cursorMissing r.id id) (fun _ => Ends d r .done) :=
  get (fun _ hs => at_state (ite (fun _ => ends_replied h rfl) (fun _ => ends_replied h rfl)) hs)

theorem ends_fetchFrom {id c : Nat} {k : Cursor} (h : r.Plain) :
    Does (On d) (fetchFrom a r.id id k c) (fun _ => Ends d r .done) := by
  unfold fetchFrom
  rcases a.fetch with ⟨e, ended⟩ | ⟨body, more⟩
  · cases ended with
    | true =>
      exact (on_ask rfl).bind (fun _ => on_cursorUnlink.bind (fun _ => on_abortOwn.bind (fun _ => ends_replied h rfl)))
    | false => exact on_cursorDrop.bind (fun _ => ends_replied h rfl)
  · cases more with
    | true =>
      refine get (fun s hs => at_state (Does.bind (R := fun _ => On d) ?_ (fun _ => ends_replied h rfl)) hs)
      refine Does.modify (fun s₁ h₁ => ⟨h₁.desk, fun x hx => ?_⟩)
      obtain ⟨y, hy, rfl⟩ := List.mem_map.1 hx
      have hsvc := h₁.svcs y hy
      split_ifs <;> exact hsvc
    | false =>
      refine on_outFrame.bind (fun _ => (on_ask rfl).bind (fun _ => on_cursorUnlink.bind (fun _ => on_abortOwn.post
        (fun _ _ hs => ?_))))
      exact (handled_plain h rfl).ends hs

theorem ends_doFetch (h : r.Plain) : Does (On d) (doFetch a r) (fun _ => Ends d r .done) := by
  refine (on_cursorId h).bind (fun o => ?_)
  cases o with
  | none => exact Does.pure (fun _ hs => hs)
  | some id =>
    refine get (fun s hs => at_state ?_ hs)
    generalize hfind : List.find? _ _ = found
    cases found with
    | none => exact ends_cursorMissing h
    | some k =>
      obtain ⟨c, hc⟩ := Option.isSome_iff_exists.1 (hs.svcs k (List.mem_of_find?_eq_some hfind))
      dsimp only
      rw [hc]
      exact (on_ask rfl).bind (fun _ => ends_fetchFrom h)

theorem ends_doClose (h : r.Plain) : Does (On d) (doClose r) (fun _ => Ends d r .done) := by
  refine (on_cursorId h).bind (fun o => ?_)
  cases o with
  | none => exact Does.pure (fun _ hs => hs)
  | some id =>
    refine get (fun s hs => at_state ?_ hs)
    generalize hfind : List.find? _ _ = found
    cases found with
    | none => exact ends_cursorMissing h
    | some k => exact on_cursorDrop.bind (fun _ => ends_replied h rfl)

theorem ends_doPrepare (h : r.Plain) : Does (On d) (doPrepare a r) (fun _ => Ends d r .done) := by
  refine get (fun s hs => at_state ?_ hs)
  rcases s.o.svc with _ | svc
  · exact ends_replied h rfl
  refine ite (fun _ => ends_replied h rfl) (fun _ => ite (fun _ => ends_replied h rfl) (fun _ => ?_))
  rcases a.prepare with e | x
  · exact ends_replied h rfl
  · exact ends_replied h rfl

theorem ends_refuse {code : Code} {m : Bytes} (hh : d.hello = false) :
    Does (On d) (refuse r.id code m) (fun _ => Ends d r .done) := by
  refine on_outFrame.bind (fun _ => (on_conn (fun x => { x with closing := true }) ?_ ?_).post (fun _ _ hs => ?_))
  · exact fun _ => rfl
  · exact fun _ _ h => h
  · exact (Handled.refused code m hh).ends hs

theorem ends_doHello (hh : d.hello = false) (ht : r.type = .hello) :
    Does (On d) (doHello r) (fun _ => Ends d r .done) := by
  unfold doHello
  split
  · refine ite (fun _ => ?_) (fun _ => ends_refuse hh)
    refine Does.bind (R := fun _ => On { d with hello := true }) ?_ (fun _ => ?_)
    · refine on_conn (fun x => { x with hello := true }) ?_ ?_
      · exact fun _ => rfl
      · exact fun _ _ h => h
    · refine get (fun s hs => at_state (on_outFrame.post (fun _ _ h => ?_)) hs)
      exact (Handled.greeted _ hh rfl ht).ends h
  · exact ends_refuse hh

theorem ends_bye (ht : r.type = .bye) : Does (On d) (onConn fun c => { c with closing := true })
    (fun _ => Ends d r .done) := by
  refine (on_conn (fun x => { x with closing := true }) ?_ ?_).post (fun _ _ hs => (Handled.bye ht).ends hs)
  · exact fun _ => rfl
  · exact fun _ _ h => h

theorem ends_answerOther (hopen : d.tx.isOpen → d.txn.isSome) (hb : r.type ≠ .begin) (hq : r.type ≠ .query) :
    Does (On d) (answerOther a r) (fun _ => Ends d r .done) := by
  have hplain : ¬ r.type.closes → r.Plain := fun h => ⟨hb, hq, h⟩
  have hnot : ∀ {m : Msg}, r.type = m → m ≠ .commit → m ≠ .rollback → ¬ r.type.closes := fun hm hc hr h => by
    rw [hm] at h
    rcases h with h | h
    · exact hc h
    · exact hr h
  unfold answerOther
  split
  · exact ends_replied (hplain (hnot ‹_› (by decide) (by decide))) rfl
  · exact ends_bye ‹_›
  · exact ends_doCommit hopen ‹_›
  · exact ends_doRollback hopen ‹_›
  · exact ends_doFetch (hplain (hnot ‹_› (by decide) (by decide)))
  · exact ends_doClose (hplain (hnot ‹_› (by decide) (by decide)))
  · exact ends_doPrepare (hplain (hnot ‹_› (by decide) (by decide)))
  · exact ends_replied (hplain (hnot ‹_› (by decide) (by decide))) rfl
  · exact ends_replied (hplain (hnot ‹_› (by decide) (by decide))) rfl
  · rename_i hc hr _ _ _ _ _
    exact ends_replied (hplain (fun h => by rcases h with h | h; exacts [hc h, hr h])) rfl

theorem on_touch : Does (On d) touch (fun _ => On d) := by
  refine get (fun s hs => at_state (on_quiet ?_ ?_) hs)
  · exact fun _ => rfl
  · exact fun _ _ h => h

/-- **Every request ends in one of these ways.** -/
theorem ends_handleReq (hopen : d.tx.isOpen → d.txn.isSome) : Does (On d) (handleReq a r) (Ends d r) := by
  refine get (fun s hs => at_state ?_ hs)
  have hello : s.c.hello = d.hello := congrArg Desk.hello hs.desk
  rw [hello]
  refine ite (fun hh => on_touch.bind (fun _ => ?_)) (fun hh => ite (fun ht => ?_) (fun _ => ?_))
  · split
    · exact ends_doBegin hh ‹_› hopen
    · exact ends_doQuery hh ‹_› hopen
    · rename_i hb hq
      exact (ends_answerOther hopen hb hq).bind (fun _ => Does.pure (fun _ h => h))
  · rw [Bool.not_eq_true] at hh
    exact (ends_doHello hh ht).bind (fun _ => Does.pure (fun _ h => h))
  · rw [Bool.not_eq_true] at hh
    exact (ends_refuse hh).bind (fun _ => Does.pure (fun _ h => h))

end

end Owner
end Gbasic
