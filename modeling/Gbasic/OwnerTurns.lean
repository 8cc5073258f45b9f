import Gbasic.OwnerHeld
/-!
# OwnerTurns — every request keeps what its connection has open

A request is answered only where no read of its connection works; then every turn of a connection, from any state it
is in, uses open handles and no others.
-/
namespace Gbasic
namespace Owner

open Lsm (Status)
open Key (Bytes)
open Does (get at_state ite each)

section
variable {R : Rest} {T T' : List Txn} {K K' : List Cur} {v v' : View} {w w' : Option Nat} {s : Turn}
variable {a : Answers} {r : Req} {id t c : Nat} {k : Cursor} {q : Statement} {write : Bool}

/-! ## What leaves every handle alone -/

theorem does_fifoRemove : Does (At R T K v w) fifoRemove (fun _ => At R T K v w) := by
  refine get (fun s hs => at_state ?_ hs)
  refine (does_onShared ?_ ?_ ?_).bind (fun _ => does_quiet ?_)
  · exact fun _ => rfl
  · exact fun _ => rfl
  · exact fun _ => rfl
  · exact fun _ => rfl

theorem does_leaveQueue : Does (At R T K v w) leaveQueue (fun _ => At R T K v w) :=
  get (fun _ hs => at_state (ite (fun _ => does_fifoRemove) (fun _ => Does.pure (fun _ h => h))) hs)

theorem does_joinQueue : Does (At R T K v w) joinQueue (fun _ => At R T K v w) := by
  refine get (fun s hs => at_state (ite (fun _ => Does.pure (fun _ h => h)) (fun _ => ?_)) hs)
  refine (does_onShared ?_ ?_ ?_).bind (fun _ => does_quiet ?_)
  · exact fun _ => rfl
  · exact fun _ => rfl
  · exact fun _ => rfl
  · exact fun _ => rfl

theorem does_groupAdd {mark : Nat} : Does (At R T K v w) (groupAdd id mark) (fun _ => At R T K v w) := by
  refine get (fun s hs => at_state ?_ hs)
  refine (does_onShared ?_ ?_ ?_).bind (fun _ => does_quiet ?_)
  · exact fun _ => rfl
  · exact fun _ => rfl
  · exact fun _ => rfl
  · exact fun _ => rfl

theorem does_sendCommitted {affected : Option Nat} {warnings : Bytes} :
    Does (At R T K v w) (sendCommitted a id t affected warnings) (fun _ => At R T K v w) := by
  unfold sendCommitted
  refine ite (fun _ => ?_) (fun _ => does_sendError)
  exact get (fun s hs => at_state (does_outFrame.bind (fun _ => does_groupAdd)) hs)

theorem does_txnRefuses : Does (At R T K v w) (txnRefuses id)
    (fun b s => At R T K v w s ∧ (b = false → v.tx ≠ .failed ∧ v.tx ≠ .timedOut)) := by
  refine get (fun s hs => at_state ?_ hs)
  have htx : s.c.tx = v.tx := congrArg View.tx hs.view
  have hsent : ∀ (p : Prop) code m, Does (At R T K v w) (do sendError id code m; return true)
      (fun b s => At R T K v w s ∧ (b = false → p)) := fun p code m =>
    does_sendError.bind (fun _ => Does.pure (fun _ h => ⟨h, fun hb => absurd hb (by decide)⟩))
  rw [htx]
  rcases v.tx with _ | _ | _ | _ | _
  · exact Does.pure (fun _ h => ⟨h, fun _ => ⟨by decide, by decide⟩⟩)
  · exact Does.pure (fun _ h => ⟨h, fun _ => ⟨by decide, by decide⟩⟩)
  · exact Does.pure (fun _ h => ⟨h, fun _ => ⟨by decide, by decide⟩⟩)
  · exact hsent _ _ _
  · exact hsent _ _ _

/-! ## A cursor given to the connection -/

theorem does_sendRows {body : Rows} (svc own : Option Nat) (hv : v.Tidy) (hf : Fair R v)
    (hin : svc.isSome → own = none → v.txn.isSome) : Does (At R (own.toList.map (fun t => ⟨t, false⟩) ++ v.txns)
      (svc.toList.map (fun k => ⟨k, (own.or v.txn).getD 0⟩) ++ v.curs) v (slot R v)) (sendRows id body svc own)
      (fun _ s => ∃ v', Held R v' s) := by
  refine get (fun s hs => at_state ?_ hs)
  rcases svc with _ | k
  · refine Does.bind (R := fun _ => At R v.txns v.curs v (slot R v)) ?_ (fun _ => ?_)
    · rcases own with _ | t
      · exact Does.pure (fun _ h => h)
      · exact does_ends (t := ⟨t, false⟩) rfl (List.Perm.refl _) hv.inside
    · exact does_outFrame.post (fun _ s h => ⟨v, h, hv, hf⟩)
  · dsimp only
    set c : Cursor := ⟨s.o.nextCursor + 1, some k, own, s.o.now⟩ with hc
    refine (does_onShared ?_ ?_ ?_).bind (fun _ => (does_onConn (u := { v with cursors := c :: v.cursors }) ?_).bind
      (fun _ => does_outFrame.post (fun _ s h => ⟨{ v with cursors := c :: v.cursors }, ?_, ?_, ?_⟩)))
    · exact fun _ => rfl
    · exact fun _ => rfl
    · exact fun _ => rfl
    · rintro x rfl
      rfl
    · refine h.perm ?_ ?_
      · have hown : ownTxns (c :: v.cursors) = own.toList.map (fun t => ⟨t, false⟩) ++ ownTxns v.cursors := by
          cases own <;> rfl
        rw [View.txns, View.txns, hown]
        refine List.perm_append_comm_assoc _ _ _ |>.trans ?_
        exact (List.perm_append_comm_assoc _ _ _).append_left _
      · exact List.perm_append_comm_assoc _ _ _
    · refine ⟨⟨hv.work, hv.workIn, fun x hx => ?_, fun x hx ho => ?_⟩, hv.txn⟩
      · rcases List.mem_cons.1 hx with rfl | hx
        · rfl
        · exact hv.svc x hx
      · rcases List.mem_cons.1 hx with rfl | hx
        · exact hin rfl ho
        · exact hv.own x hx ho
    · exact ⟨hf.alone, hf.other, hf.id, hf.reads⟩

theorem does_setWork {k : Nat} (own : Option Nat) (hv : v.Tidy) (hf : Fair R v) (hidle : v.work = none)
    (hin : own = none → v.txn.isSome) :
    Does (At R (own.toList.map (fun t => ⟨t, false⟩) ++ v.txns) (⟨k, (own.or v.txn).getD 0⟩ :: v.curs) v (slot R v))
      (setWork id k own) (fun _ s => ∃ v', Held R v' s) := by
  have hown : v.workTxn = none := hv.work hidle
  refine (does_onConn (u := { v with work := some k, workTxn := own }) ?_).post (fun _ s h =>
    ⟨{ v with work := some k, workTxn := own }, h.perm ?_ ?_, ?_, ⟨hf.alone, hf.other, hf.id, hf.reads⟩⟩)
  · rintro c rfl
    rfl
  · rw [View.txns, View.txns, hown]
    exact List.perm_append_comm_assoc _ _ _
  · rw [View.curs, View.curs, hidle]
    exact List.Perm.refl _
  · exact ⟨⟨fun h => absurd h (by simp), fun _ => hin, hv.svc, hv.own⟩, hv.txn⟩

/-! ## Statements -/

theorem reads_of_tx (h : v.tx ≠ .write) : ∀ t ∈ v.txns, t.write = false := by
  intro t ht
  rw [View.txns, List.mem_append, List.mem_append] at ht
  rcases ht with ht | ht | ht
  · obtain ⟨n, -, rfl⟩ := List.mem_map.1 ht
    simpa using h
  · obtain ⟨n, -, rfl⟩ := List.mem_map.1 ht
    rfl
  · obtain ⟨k, -, hk⟩ := List.mem_filterMap.1 ht
    obtain ⟨n, -, rfl⟩ := Option.map_eq_some_iff.1 hk
    rfl

theorem does_writerTake (hf : Fair R v) (hv : v.tx ≠ .write) : Does (At R T K v (slot R v)) writerTake
    (fun b s => At R T K v (slot R v) s ∧ (b = true → R.writer = none)) := by
  have hslot : slot R v = R.writer := if_neg hv
  refine get (fun s hs => at_state ?_ hs)
  have hid : s.c.id = v.id := congrArg View.id hs.view
  refine ite (fun hmine => ?_) (fun _ => ite (fun hfree => ?_) (fun _ => ?_))
  · rw [hs.writer, hslot, hid] at hmine
    exact absurd hmine hf.other
  · rw [hs.writer, hslot] at hfree
    exact does_leaveQueue.bind (fun _ => Does.pure (fun _ h => ⟨h, fun _ => hfree.1⟩))
  · exact does_joinQueue.bind (fun _ => Does.pure (fun _ h => ⟨h, fun hb => absurd hb (by decide)⟩))

theorem does_closeSvc {k : Option Nat} {u : Txn} (hu : u ∈ T) (hid : u.id = t) :
    Does (At R T (k.toList.map (fun k => ⟨k, t⟩) ++ K) v w) (closeSvc k) (fun _ => At R T K v w) := by
  rcases k with _ | k
  · exact Does.pure (fun _ h => h)
  · exact does_closes (k := ⟨k, t⟩) (t := u) (List.Perm.refl _) hu hid

theorem does_endWrite {r : Ran} (hv : v.Tidy) (hf : Fair R v) (hr : ∀ k, r ≠ .working k) :
    Does (At R (⟨t, true⟩ :: v.txns) (r.curs t ++ v.curs) v (slot R v)) (endWrite a id t r)
      (fun _ s => ∃ v', Held R v' s) := by
  have hends : ∀ x : Asked, x.call = some (.ends t) →
      Does (At R (⟨t, true⟩ :: v.txns) v.curs v (slot R v)) (ask x) (fun _ => At R v.txns v.curs v (slot R v)) :=
    fun x hx => does_ends (t := ⟨t, true⟩) hx (List.Perm.refl _) hv.inside
  have hsent : Does (At R v.txns v.curs v (slot R v)) (sendCommitted a id t none [])
      (fun _ s => ∃ v', Held R v' s) := does_sendCommitted.post (fun _ _ h => ⟨v, h, hv, hf⟩)
  cases r with
  | refused e partWay =>
    exact (hends (.aborted t) rfl).bind (fun _ => does_outFrame.bind (fun _ => Does.pure (fun _ h => ⟨v, h, hv, hf⟩)))
  | working k => exact absurd rfl (hr k)
  | rows body k =>
    have hcurs : (Ran.rows body k).curs t = k.toList.map (fun k => ⟨k, t⟩) := by cases k <;> rfl
    rw [hcurs]
    refine (does_closeSvc (u := ⟨t, true⟩) List.mem_cons_self rfl).bind (fun _ => ?_)
    refine Does.bind (R := fun _ => At R v.txns v.curs v (slot R v)) ?_ (fun _ => ?_)
    · exact (hends (.committed t true a.commits) rfl).bind (fun _ => Does.pure (fun _ h => h))
    dsimp only
    refine ite (fun _ => ?_) (fun _ => hsent.bind (fun _ => Does.pure (fun _ h => h)))
    exact (does_sendRows none none hv hf (fun h => nomatch h)).bind (fun _ => Does.pure (fun _ h => h))
  | done affected warnings =>
    refine Does.bind (R := fun _ => At R v.txns v.curs v (slot R v)) ?_ (fun _ => ?_)
    · exact (hends (.committed t false a.commits) rfl).bind (fun _ => Does.pure (fun _ h => h))
    exact does_sendCommitted.bind (fun _ => Does.pure (fun _ h => ⟨v, h, hv, hf⟩))

theorem does_queryWrite (hq : q.sliced = false) (hw : v.tx ≠ .write) :
    Does (Held R v) (queryWrite a r q) (fun _ s => ∃ v', Held R v' s) := by
  refine each (fun s h => at_state ?_ h.state)
  have hv := h.tidy
  have hf := h.fair
  refine (does_writerTake hf hw).bind (fun b => each (fun s₁ h₁ => at_state ?_ h₁.1))
  refine ite (fun _ => Does.pure (fun _ h => ⟨v, h, hv, hf⟩)) (fun hb => ?_)
  have hfree : R.writer = none := h₁.2 (by simpa using hb)
  refine (does_beginTxn (fun _ => ⟨reads_of_tx hw, hf.reads hfree⟩)).bind (fun o => ?_)
  cases o with
  | none => exact does_sendError.bind (fun _ => Does.pure (fun _ h => ⟨v, h, hv, hf⟩))
  | some t =>
    refine (does_runStatement (t := ⟨t, true⟩) List.mem_cons_self).bind (fun ran => ?_)
    refine each (fun s₂ h₂ => at_state (does_endWrite hv hf (fun k hk => ?_)) h₂.1)
    have := h₂.2 k hk
    rw [show ({ q with batch := 2 ^ 32 - 1 } : Statement).sliced = q.sliced from rfl, hq] at this
    cases this

theorem does_endRead {r : Ran} (hv : v.Tidy) (hf : Fair R v) (hidle : v.work = none) :
    Does (At R (⟨t, false⟩ :: v.txns) (r.curs t ++ v.curs) v (slot R v)) (endRead id t r)
      (fun _ s => ∃ v', Held R v' s) := by
  have hends : Does (At R (⟨t, false⟩ :: v.txns) v.curs v (slot R v)) (abort t)
      (fun _ => At R v.txns v.curs v (slot R v)) :=
    does_ends (t := ⟨t, false⟩) rfl (List.Perm.refl _) hv.inside
  cases r with
  | refused e partWay =>
    exact hends.bind (fun _ => does_outFrame.bind (fun _ => Does.pure (fun _ h => ⟨v, h, hv, hf⟩)))
  | working k =>
    exact (does_setWork (some t) hv hf hidle (fun h => nomatch h)).bind (fun _ => Does.pure (fun _ h => h))
  | rows body k =>
    have hcurs : (Ran.rows body k).curs t = k.toList.map (fun k => ⟨k, ((some t).or v.txn).getD 0⟩) := by
      cases k <;> rfl
    rw [hcurs]
    exact (does_sendRows _ (some t) hv hf (fun _ h => nomatch h)).bind (fun _ => Does.pure (fun _ h => h))
  | done affected warnings =>
    exact hends.bind (fun _ => does_outFrame.bind (fun _ => Does.pure (fun _ h => ⟨v, h, hv, hf⟩)))

theorem does_queryRead (hidle : v.work = none) : Does (Held R v) (queryRead a r q) (fun _ s => ∃ v', Held R v' s) := by
  refine each (fun s h => at_state ?_ h.state)
  have hv := h.tidy
  have hf := h.fair
  refine (does_beginTxn (fun h => absurd h (by decide))).bind (fun o => ?_)
  cases o with
  | none => exact does_sendError.bind (fun _ => Does.pure (fun _ h => ⟨v, h, hv, hf⟩))
  | some t =>
    refine (does_runStatement (t := ⟨t, false⟩) List.mem_cons_self).bind (fun ran => ?_)
    exact (does_endRead hv hf hidle).pre (fun _ h => h.1)

theorem does_queryUndo {marked : Bool} {e : GsqlError} {partWay : Bool} (hidle : v.work = none) (ht : v.txn = some t) :
    Does (Held R v) (queryUndo a t marked e partWay) (fun _ s => ∃ v', Held R v' s) := by
  have hu : v.Unworked := fun h => by rw [hidle] at h; cases h
  refine each (fun s h => at_state ?_ h.state)
  have hmem : (⟨t, decide (v.tx = .write)⟩ : Txn) ∈ v.txns := by simp [View.txns, ht]
  refine Does.bind (R := fun _ => Held R v) ?_ (fun _ => ?_)
  · refine (does_askIf (t := ⟨t, decide (v.tx = .write)⟩) ?_ hmem).post (fun _ _ hs => ⟨hs, h.tidy, h.fair⟩)
    split_ifs <;> rfl
  · refine ite (fun _ => ?_) (fun _ => ite (fun _ => ?_) (fun _ => Does.pure (fun _ h => ⟨v, h⟩)))
    · exact (does_txnFailed hu).post (fun _ _ h => ⟨_, h⟩)
    · exact (does_txnFailed hu).post (fun _ _ h => ⟨_, h⟩)

theorem Held.replied {r : Reply} : Does (Held R v) (outFrame id r) (fun _ => Held R v) :=
  each (fun _ h => at_state (does_outFrame.post (fun _ _ hs => ⟨hs, h.tidy, h.fair⟩)) h.state)

theorem does_endInside {marked : Bool} {r : Ran} (hv : v.Tidy) (hf : Fair R v) (hidle : v.work = none)
    (ht : v.txn = some t) :
    Does (At R v.txns (r.curs t ++ v.curs) v (slot R v)) (endInside a id t marked r)
    (fun _ s => ∃ v', Held R v' s) := by
  have hmem : (⟨t, decide (v.tx = .write)⟩ : Txn) ∈ v.txns := by simp [View.txns, ht]
  have hsome : v.txn.isSome := by rw [ht]; rfl
  cases r with
  | refused e partWay =>
    refine Does.bind (R := fun _ s => ∃ v', Held R v' s) ?_ (fun _ => ?_)
    · exact (does_queryUndo hidle ht).pre (fun _ h => ⟨h, hv, hf⟩)
    · refine each (fun s h => ?_)
      obtain ⟨v', h⟩ := h
      exact at_state (Held.replied.bind (fun _ => Does.pure (fun _ h => ⟨v', h⟩))) h
  | working k =>
    refine (does_askIf (t := ⟨t, decide (v.tx = .write)⟩) rfl hmem).bind (fun _ => ?_)
    refine Does.bind (R := fun _ s => ∃ v', Held R v' s) ?_ (fun _ => Does.pure (fun _ h => h))
    refine (does_setWork none hv hf hidle (fun _ => hsome)).pre (fun _ h => h.perm (List.Perm.refl _) ?_)
    rw [Ran.curs, ht]
    exact List.Perm.refl _
  | rows body k =>
    refine (does_askIf (t := ⟨t, decide (v.tx = .write)⟩) rfl hmem).bind (fun _ => ?_)
    refine Does.bind (R := fun _ s => ∃ v', Held R v' s) ?_ (fun _ => Does.pure (fun _ h => h))
    refine (does_sendRows _ none hv hf (fun _ _ => hsome)).pre (fun _ h => h.perm (List.Perm.refl _) ?_)
    rw [ht]
    cases k <;> exact List.Perm.refl _
  | done affected warnings =>
    refine (does_askIf (t := ⟨t, decide (v.tx = .write)⟩) rfl hmem).bind (fun _ => ?_)
    exact does_outFrame.bind (fun _ => Does.pure (fun _ h => ⟨v, h, hv, hf⟩))

theorem does_queryInside {wr : Bool} (hidle : v.work = none) (ht : v.txn = some t) :
    Does (Held R v) (queryInside a r q wr t) (fun _ s => ∃ v', Held R v' s) := by
  refine each (fun s h => at_state ?_ h.state)
  have hmem : (⟨t, decide (v.tx = .write)⟩ : Txn) ∈ v.txns := by simp [View.txns, ht]
  refine get (fun s₁ h₁ => at_state ?_ h₁)
  refine (does_askIf (t := ⟨t, decide (v.tx = .write)⟩) rfl hmem).bind (fun _ => ?_)
  refine (does_runStatement (t := ⟨t, decide (v.tx = .write)⟩) hmem).bind (fun ran => ?_)
  exact (does_endInside h.tidy h.fair hidle ht).pre (fun _ h => h.1)

theorem does_queryIn {wr : Bool} (hidle : v.work = none) (hq : wr = true → q.sliced = false) :
    Does (Held R v) (queryIn a r q wr) (fun _ s => ∃ v', Held R v' s) := by
  refine get (fun s h => ?_)
  have htx : s.c.tx = v.tx := congrArg View.tx h.state.view
  have htxn : s.c.txn = v.txn := congrArg View.txn h.state.view
  dsimp only
  rw [htx, htxn]
  refine at_state ?_ h
  refine ite (fun _ => Held.replied.bind (fun _ => Does.pure (fun _ h => ⟨v, h⟩))) (fun _ => ite (fun hnone => ?_)
    (fun _ => ?_))
  · have hnw : v.tx ≠ .write := by rw [hnone]; decide
    exact ite (fun hwr => does_queryWrite (hq hwr) hnw) (fun _ => does_queryRead hidle)
  · rcases ht : v.txn with _ | t
    · exact Does.pure (fun _ h => ⟨v, h⟩)
    · exact does_queryInside hidle ht

/-- **A QUERY keeps what its connection has open.** -/
theorem does_doQuery (hidle : v.work = none) : Does (Held R v) (doQuery a r) (fun _ s => ∃ v', Held R v' s) := by
  refine get (fun s h => at_state ?_ h)
  rcases r.field "statement" with _ | stmt
  · exact Held.replied.bind (fun _ => Does.pure (fun _ h => ⟨v, h⟩))
  rcases s.o.svc with _ | svc
  · exact Held.replied.bind (fun _ => Does.pure (fun _ h => ⟨v, h⟩))
  refine each (fun s₁ h₁ => at_state (does_txnRefuses.bind (fun b => ?_)) h₁.state)
  refine Does.pre (I := Held R v) ?_ (fun _ hs => ⟨hs.1, h₁.tidy, h₁.fair⟩)
  refine ite (fun _ => Does.pure (fun _ h => ⟨v, h⟩)) (fun _ => ?_)
  rcases r.writes with e | writes
  · exact Held.replied.bind (fun _ => Does.pure (fun _ h => ⟨v, h⟩))
  · refine does_queryIn hidle (fun hw => ?_)
    simp [statementOf, hw]

/-! ## Cursors -/

namespace View

def without (v : View) (k : Cursor) : View := { v with cursors := v.cursors.erase k }

theorem Tidy.without (h : v.Tidy) : (v.without k).Tidy where
  txn := h.txn
  work := h.work
  workIn := h.workIn
  svc x hx := h.svc x (List.mem_of_mem_erase hx)
  own x hx := h.own x (List.mem_of_mem_erase hx)

theorem txns_without (hk : k ∈ v.cursors) : v.txns.Perm (ownTxns [k] ++ (v.without k).txns) := by
  have hperm : (ownTxns v.cursors).Perm (ownTxns [k] ++ ownTxns (v.cursors.erase k)) := by
    rw [← ownTxns_cons]
    exact (List.perm_cons_erase hk).filterMap _
  rw [View.txns, View.txns]
  refine ((hperm.append_left _).append_left _).trans ?_
  exact ((List.perm_append_comm_assoc _ _ _).append_left _).trans (List.perm_append_comm_assoc _ _ _)

theorem curs_without (hk : k ∈ v.cursors) : v.curs.Perm (svcCurs v.txn [k] ++ (v.without k).curs) := by
  have hperm : (svcCurs v.txn v.cursors).Perm (svcCurs v.txn [k] ++ svcCurs v.txn (v.cursors.erase k)) := by
    rw [← svcCurs_cons]
    exact (List.perm_cons_erase hk).filterMap _
  exact (hperm.append_left _).trans (List.perm_append_comm_assoc _ _ _)

theorem Tidy.onTxn_without (h : v.Tidy) (hk : k ∈ v.cursors) : OnTxn v.txn (v.without k).txns k := by
  refine ⟨h.svc k hk, fun ho => ?_⟩
  obtain ⟨t, ht⟩ := Option.isSome_iff_exists.1 (h.own k hk ho)
  exact ⟨⟨t, decide (v.tx = .write)⟩, by simp [View.txns, View.without, ht], ht⟩

end View

theorem Fair.without (h : Fair R v) : Fair R (v.without k) := ⟨h.alone, h.other, h.id, h.reads⟩

theorem does_cursorUnlink : Does (At R T K v w) (cursorUnlink k) (fun _ => At R T K (v.without k) w) :=
  does_onConn (fun c hc => by rw [← hc]; rfl)

theorem does_cursorDrop (hk : k ∈ v.cursors) : Does (Held R v) (cursorDrop k) (fun _ => Held R (v.without k)) := by
  refine each (fun s h => at_state ?_ (h.state.perm (View.txns_without hk) (View.curs_without hk)))
  refine does_cursorUnlink.bind (fun _ => ?_)
  refine (does_cursorFree (h.tidy.onTxn_without hk) h.tidy.without.inside).post (fun _ s hs => ?_)
  exact ⟨hs, h.tidy.without, h.fair.without⟩

theorem does_endedCursor (hk : k ∈ v.cursors) (hc : k.svc = some c) :
    Does (Held R v) (do ask (.closed c); cursorUnlink k; abortOwn k.own) (fun _ => Held R (v.without k)) := by
  refine each (fun s h => at_state ?_ (h.state.perm (View.txns_without hk) (View.curs_without hk)))
  refine (does_closed (h.tidy.onTxn_without hk) hc).bind (fun _ => does_cursorUnlink.bind (fun _ => ?_))
  rw [ownTxns_one]
  refine (does_abortOwn h.tidy.without.inside).post (fun _ s hs => ⟨hs, h.tidy.without, h.fair.without⟩)

theorem does_fetched {n : Nat} (hk : k ∈ v.cursors) (hc : k.svc = some c) :
    Does (Held R v) (ask (.fetched c n)) (fun _ => Held R v) := by
  refine each (fun s h => at_state ?_ h.state)
  have hcur : (⟨c, (k.own.or v.txn).getD 0⟩ : Cur) ∈ v.curs :=
    List.mem_append_right _ (List.mem_filterMap.2 ⟨k, hk, by rw [hc]; rfl⟩)
  obtain ⟨u, hu, hid⟩ := h.tidy.inside _ hcur
  exact (does_looks (k := ⟨c, (k.own.or v.txn).getD 0⟩) rfl hcur hu hid).post (fun _ s hs => ⟨hs, h.tidy, h.fair⟩)

theorem does_touched {now : Nat} :
    Does (Held R v) (onConn fun c =>
      { c with cursors := c.cursors.map (fun x => if x = k then { x with lastMs := now } else x) })
      (fun _ s => ∃ v', Held R v' s) := by
  refine each (fun s h => at_state ?_ h.state)
  set f : Cursor → Cursor := fun x => if x = k then { x with lastMs := now } else x with hf
  have hsvc : ∀ x, (f x).svc = x.svc := fun x => by rw [hf]; dsimp only; split_ifs <;> rfl
  have hown : ∀ x, (f x).own = x.own := fun x => by rw [hf]; dsimp only; split_ifs <;> rfl
  refine (does_onConn (u := { v with cursors := v.cursors.map f }) ?_).post (fun _ s' hs =>
    ⟨{ v with cursors := v.cursors.map f }, ?_, ?_, ⟨h.fair.alone, h.fair.other, h.fair.id, h.fair.reads⟩⟩)
  · rintro c rfl
    rfl
  · have htxns : ownTxns (v.cursors.map f) = ownTxns v.cursors := by
      rw [ownTxns, List.filterMap_map]
      exact List.filterMap_congr (fun x _ => by simp [hown])
    have hcurs : svcCurs v.txn (v.cursors.map f) = svcCurs v.txn v.cursors := by
      rw [svcCurs, List.filterMap_map]
      exact List.filterMap_congr (fun x _ => by simp [hown, hsvc])
    have hT : ({ v with cursors := v.cursors.map f } : View).txns = v.txns := by rw [View.txns, View.txns, htxns]
    have hK : ({ v with cursors := v.cursors.map f } : View).curs = v.curs := by rw [View.curs, View.curs, hcurs]
    rw [hT, hK]
    exact hs
  · refine ⟨⟨h.tidy.work, h.tidy.workIn, fun x hx => ?_, fun x hx ho => ?_⟩, h.tidy.txn⟩
    · obtain ⟨y, hy, rfl⟩ := List.mem_map.1 hx
      rw [hsvc]
      exact h.tidy.svc y hy
    · obtain ⟨y, hy, rfl⟩ := List.mem_map.1 hx
      rw [hown] at ho
      exact h.tidy.own y hy ho

theorem does_saysAny {r : Reply} : Does (fun s => ∃ v, Held R v s) (outFrame id r) (fun _ s => ∃ v, Held R v s) :=
  each (fun _ ⟨v, h⟩ => at_state (Held.replied.post (fun _ _ hs => ⟨v, hs⟩)) h)

theorem does_fetchFrom {req : Nat} (hk : k ∈ v.cursors) (hc : k.svc = some c) :
    Does (Held R v) (fetchFrom a req id k c) (fun _ s => ∃ v', Held R v' s) := by
  unfold fetchFrom
  have hended : Does (Held R v) (do ask (.closed c); cursorUnlink k; abortOwn k.own) (fun _ s => ∃ v', Held R v' s) :=
    (does_endedCursor hk hc).post (fun _ _ h => ⟨_, h⟩)
  rcases a.fetch with ⟨e, ended⟩ | ⟨body, more⟩
  · cases ended with
    | true =>
      intro s h
      exact does_saysAny _ (hended s h)
    | false => exact (does_cursorDrop hk).bind (fun _ => Held.replied.post (fun _ _ h => ⟨_, h⟩))
  · cases more with
    | true => exact get (fun s h => at_state (does_touched.bind (fun _ => does_saysAny)) h)
    | false => exact Held.replied.bind (fun _ => hended)

theorem does_cursorId : Does (Held R v) (cursorId r) (fun _ => Held R v) := by
  unfold cursorId
  rcases r.u64 "cursor" with _ | id
  · exact Held.replied.bind (fun _ => Does.pure (fun _ h => h))
  · exact Does.pure (fun _ h => h)

theorem does_cursorMissing {req : Nat} : Does (Held R v) (cursorMissing req id) (fun _ => Held R v) :=
  get (fun _ h => at_state (ite (fun _ => Held.replied) (fun _ => Held.replied)) h)

theorem does_doFetch : Does (Held R v) (doFetch a r) (fun _ s => ∃ v', Held R v' s) := by
  refine does_cursorId.bind (fun o => ?_)
  rcases o with _ | id
  · exact Does.pure (fun _ h => ⟨v, h⟩)
  refine get (fun s h => at_state ?_ h)
  have hcur : s.c.cursors = v.cursors := congrArg View.cursors h.state.view
  rw [hcur]
  generalize hfind : v.cursors.find? _ = o
  rcases o with _ | k
  · exact does_cursorMissing.post (fun _ _ h => ⟨v, h⟩)
  have hk := List.mem_of_find?_eq_some hfind
  obtain ⟨c, hc⟩ := Option.isSome_iff_exists.1 (h.tidy.svc k hk)
  dsimp only
  rw [hc]
  exact (does_fetched hk hc).bind (fun _ => does_fetchFrom hk hc)

theorem does_doClose : Does (Held R v) (doClose r) (fun _ s => ∃ v', Held R v' s) := by
  refine does_cursorId.bind (fun o => ?_)
  rcases o with _ | id
  · exact Does.pure (fun _ h => ⟨v, h⟩)
  refine get (fun s h => at_state ?_ h)
  have hcur : s.c.cursors = v.cursors := congrArg View.cursors h.state.view
  rw [hcur]
  generalize hfind : v.cursors.find? _ = o
  rcases o with _ | k
  · exact does_cursorMissing.post (fun _ _ h => ⟨v, h⟩)
  · exact (does_cursorDrop (List.mem_of_find?_eq_some hfind)).bind (fun _ => Held.replied.post (fun _ _ h => ⟨_, h⟩))

/-! ## Transactions -/

theorem Held.steps {α : Type} {m : Act α} (hm : ∀ {T K v w}, Does (At R T K v w) m (fun _ => At R T K v w)) :
    Does (Held R v) m (fun _ => Held R v) :=
  each (fun _ h => at_state (hm.post (fun _ _ hs => ⟨hs, h.tidy, h.fair⟩)) h.state)

theorem Held.quiet {f : Conn → Conn} (hf : ∀ c : Conn, (f c).view = c.view) :
    Does (Held R v) (onConn f) (fun _ => Held R v) := Held.steps (does_quiet hf)

theorem Held.uses {x : Asked} (hx : x.call = some (.uses t)) (ht : v.txn = some t) :
    Does (Held R v) (ask x) (fun _ => Held R v) := by
  have hmem : (⟨t, decide (v.tx = .write)⟩ : Txn) ∈ v.txns := by simp [View.txns, ht]
  exact each (fun _ h => at_state ((does_uses (t := ⟨t, decide (v.tx = .write)⟩) hx hmem).post
    (fun _ _ hs => ⟨hs, h.tidy, h.fair⟩)) h.state)

theorem Held.refuses : Does (Held R v) (txnRefuses id)
    (fun b s => Held R v s ∧ (b = false → v.tx ≠ .failed ∧ v.tx ≠ .timedOut)) :=
  each (fun _ h => at_state (does_txnRefuses.post (fun _ _ hs => ⟨⟨hs.1, h.tidy, h.fair⟩, hs.2⟩)) h.state)

theorem does_beginNested : Does (Held R v) (beginNested a r write) (fun _ => Held R v) := by
  refine get (fun s h => ?_)
  have htxn : s.c.txn = v.txn := congrArg View.txn h.state.view
  have hopened : Does (Held R v) (do onConn fun c => { c with depth := c.depth + 1 }; sendDone r.id none none [])
      (fun _ => Held R v) := by
    refine (Held.quiet ?_).bind (fun _ => Held.replied)
    exact fun _ => rfl
  dsimp only
  rw [htxn]
  refine at_state ?_ h
  split
  · rename_i t htx ht
    exact (Held.uses rfl ht).bind (fun _ => ite (fun _ => hopened) (fun _ => Held.replied))
  · exact ite (fun _ => Held.replied) (fun _ => hopened)

theorem does_beginOutermost (hnone : v.tx = .none) (hfree : write = true → R.writer = none) (hidle : v.work = none) :
    Does (Held R v) (beginOutermost a r write) (fun _ s => ∃ v', Held R v' s) := by
  refine each (fun s h => at_state ?_ h.state)
  have hv := h.tidy
  have hf := h.fair
  have hnw : v.tx ≠ .write := by rw [hnone]; decide
  have hno : v.txn = none := by
    rw [← Option.not_isSome_iff_eq_none, hv.txn, hnone]
    simp
  have hslot : slot R v = R.writer := if_neg hnw
  refine (does_beginTxn (fun hw => ⟨reads_of_tx hnw, hf.reads (hfree hw)⟩)).bind (fun o => ?_)
  cases o with
  | none =>
    refine (does_onConn (u := v) ?_).bind (fun _ => does_sendError.post (fun _ _ hs => ⟨v, hs, hv, hf⟩))
    rintro c rfl
    have hc : c.txn = none := hno
    simp [Conn.view, hc]
  | some t =>
    refine get (fun s₁ h₁ => at_state ?_ h₁)
    set v' : View := { v with txn := some t, tx := if write then .write else .read } with hv'
    have hid : s₁.c.id = v.id := congrArg View.id h₁.view
    refine Does.bind (R := fun _ => At R (⟨t, write⟩ :: v.txns) v.curs v (slot R v')) ?_ (fun _ => ?_)
    · refine Does.modify (fun s₂ h₂ => ⟨h₂.holds, h₂.view, ?_⟩)
      show (if write then some s₁.c.id else s₂.o.writer) = slot R v'
      rw [h₂.writer, hslot, hid, slot]
      cases write <;> simp [hv']
    · refine (does_onConn (u := v') ?_).bind (fun _ => does_outFrame.post (fun _ s₂ h₂ => ⟨v', ?_, ?_, ?_⟩))
      · rintro c rfl
        rfl
      · refine h₂.perm ?_ ?_
        · have hw : decide (v'.tx = .write) = write := by cases write <;> rfl
          rw [View.txns, View.txns, hno, hw]
          exact List.Perm.refl _
        · have hown : ∀ k ∈ v.cursors, k.own.isSome := fun k hk => by
            by_contra hk'
            have := hv.own k hk (by simpa using hk')
            rw [hno] at this
            cases this
          rw [View.curs, View.curs, hidle, svcCurs_of_own v.txn v'.txn hown]
          exact List.Perm.refl _
      · refine ⟨⟨hv.work, fun hw => ?_, hv.svc, fun _ _ _ => rfl⟩, ?_⟩
        · rw [show v'.work = none from hidle] at hw
          cases hw
        · cases write <;> simp [hv']
      · refine ⟨fun hw => ?_, hf.other, hf.id, hf.reads⟩
        cases write with
        | true => exact hfree rfl
        | false => cases hw

theorem does_beginIn (hidle : v.work = none) : Does (Held R v) (beginIn a r write) (fun _ s => ∃ v', Held R v' s) := by
  refine get (fun s h => at_state ?_ h)
  have htx : s.c.tx = v.tx := congrArg View.tx h.state.view
  rw [htx]
  refine ite (fun _ => does_beginNested.bind (fun _ => Does.pure (fun _ h => ⟨v, h⟩))) (fun hnone => ?_)
  rw [not_not] at hnone
  have hnw : v.tx ≠ .write := by rw [hnone]; decide
  refine ite (fun _ => ?_) (fun hread => ?_)
  · refine Does.bind (R := fun b s => Held R v s ∧ (b = true → R.writer = none)) ?_ (fun b => ?_)
    · refine each (fun s₁ h₁ => at_state ?_ h₁.state)
      exact (does_writerTake h₁.fair hnw).post (fun _ _ hs => ⟨⟨hs.1, h₁.tidy, h₁.fair⟩, hs.2⟩)
    · refine ite (fun _ => Does.pure (fun _ h => ⟨v, h.1⟩)) (fun hb => ?_)
      refine each (fun s₁ h₁ => at_state ?_ h₁.1)
      exact (does_beginOutermost hnone (fun _ => h₁.2 (by simpa using hb)) hidle).bind
        (fun _ => Does.pure (fun _ h => h))
  · exact (does_beginOutermost hnone (fun hw => absurd hw hread) hidle).bind (fun _ => Does.pure (fun _ h => h))

/-- **A BEGIN keeps what its connection has open.** -/
theorem does_doBegin (hidle : v.work = none) : Does (Held R v) (doBegin a r) (fun _ s => ∃ v', Held R v' s) := by
  refine Held.refuses.bind (fun b => Does.pre (I := Held R v) ?_ (fun _ h => h.1))
  have hsays : ∀ {c : Code} {m : Bytes}, Does (Held R v) (do sendError r.id c m; return Outcome.done)
      (fun _ s => ∃ v', Held R v' s) := Held.replied.bind (fun _ => Does.pure (fun _ h => ⟨v, h⟩))
  refine ite (fun _ => Does.pure (fun _ h => ⟨v, h⟩)) (fun _ => ?_)
  rcases r.textOf "mode" with _ | mode
  · exact hsays
  · exact ite (fun _ => does_beginIn hidle) (fun _ => ite (fun _ => does_beginIn hidle) (fun _ => hsays))

theorem does_failed {why : Bytes} (hu : v.Unworked) :
    Does (Held R v) (do txnFailed why; let _ ← txnRefuses id; pure ()) (fun _ s => ∃ v', Held R v' s) :=
  (does_txnFailed hu).bind (fun _ => Held.refuses.bind (fun _ => Does.pure (fun _ h => ⟨_, h.1⟩)))

theorem does_commitNested (hu : v.Unworked) : Does (Held R v) (commitNested a r) (fun _ s => ∃ v', Held R v' s) := by
  refine Does.bind (R := fun _ => Held R v) ?_ (fun st => ?_)
  · refine get (fun s h => ?_)
    have htxn : s.c.txn = v.txn := congrArg View.txn h.state.view
    dsimp only
    rw [htxn]
    refine at_state ?_ h
    split
    · rename_i t htx ht
      exact (Held.uses rfl ht).bind (fun _ => Does.pure (fun _ h => h))
    · exact Does.pure (fun _ h => h)
  · refine Does.bind (R := fun _ => Held R v) (Held.quiet ?_) (fun _ => ?_)
    · exact fun _ => rfl
    · exact ite (fun _ => Held.replied.post (fun _ _ h => ⟨v, h⟩)) (fun _ => does_failed hu)

theorem does_commitOutermost (hidle : v.work = none) (ht : v.txn = some t) :
    Does (Held R v) (commitOutermost a r t) (fun _ s => ∃ v', Held R v' s) := by
  have hu : v.Unworked := fun h => by rw [hidle] at h; cases h
  refine each (fun s h => at_state ?_ h.state)
  have hended : (v.ended v.tx).Wired := h.tidy.toWired.ended hu
  have htwice : (v.ended v.tx).ended .none = v.ended .none := by
    simp only [View.ended, ownCursors, List.filter_filter, Bool.and_self]
  refine (does_cursorsOfTxn h.tidy.toWired).bind (fun _ => ?_)
  refine Does.bind (R := fun _ => At R (v.ended v.tx).txns (v.ended v.tx).curs
    { v with cursors := ownCursors v.cursors } (slot R v)) ?_ (fun _ => ?_)
  · rw [@txns_ended v v.tx, curs_ended hu, ht]
    refine Does.bind ?_ (fun _ => Does.pure (fun _ h => h))
    exact does_ends (t := ⟨t, decide (v.tx = .write)⟩) rfl (List.Perm.refl _) hended.inside
  refine (does_onConn (fun _ hc => view_ended hc)).bind (fun _ => ?_)
  refine Does.bind (R := fun _ => Held R (v.ended .none)) ?_ (fun _ => ?_)
  · refine (does_txnDrop hended (fun hw => hu hw)).bind (fun _ => Does.post (does_onConn (u := v.ended .none) ?_)
      (fun _ s' hs => ?_))
    · intro c hc
      have hagain := congrArg (fun u : View => { u with tx := Tx.none }) hc
      exact hagain.trans htwice
    · rw [htwice] at hs
      refine ⟨?_, h.tidy.ended hu (by decide), h.fair.ended (by decide)⟩
      have hslot : freed (v.ended v.tx) (slot R v) = slot R (v.ended .none) := by
        have hnone : slot R (v.ended .none) = R.writer := if_neg (show Tx.none ≠ .write by decide)
        have hfreed := freed_slot h.fair
        rw [hnone]
        exact hfreed
      rw [hslot] at hs
      exact hs
  · exact each (fun s₁ h₁ => at_state (does_sendCommitted.post
      (fun _ _ hs => ⟨_, hs, h₁.tidy, h₁.fair⟩)) h₁.state)

/-- **A COMMIT keeps what its connection has open.** -/
theorem does_doCommit (hidle : v.work = none) : Does (Held R v) (doCommit a r) (fun _ s => ∃ v', Held R v' s) := by
  have hu : v.Unworked := fun h => by rw [hidle] at h; cases h
  have hend : Does (Held R v) txnEnd (fun _ s => ∃ v', Held R v' s) := (does_txnEnd hu).post (fun _ _ h => ⟨_, h⟩)
  have hrefused : Does (Held R v) (do let _ ← txnRefuses r.id; txnEnd) (fun _ s => ∃ v', Held R v' s) :=
    Held.refuses.bind (fun _ => hend.pre (fun _ h => h.1))
  refine get (fun s h => ?_)
  have htx : s.c.tx = v.tx := congrArg View.tx h.state.view
  have htxn : s.c.txn = v.txn := congrArg View.txn h.state.view
  dsimp only
  rw [htx, htxn]
  refine at_state ?_ h
  rcases v.tx with _ | _ | _ | _ | _
  · exact Held.replied.post (fun _ _ h => ⟨v, h⟩)
  · refine ite (fun _ => does_commitNested hu) (fun _ => ?_)
    exact (does_txnEnd hu).bind (fun _ => Held.replied.post (fun _ _ h => ⟨_, h⟩))
  · refine ite (fun _ => does_commitNested hu) (fun _ => ?_)
    rcases ht : v.txn with _ | t
    · exact Does.pure (fun _ h => ⟨v, h⟩)
    · exact does_commitOutermost hidle ht
  · exact hrefused
  · exact hrefused

theorem does_rollbackNested (hidle : v.work = none) (ht : v.txn = some t) :
    Does (Held R v) (rollbackNested a r t) (fun _ s => ∃ v', Held R v' s) := by
  have hu : v.Unworked := fun h => by rw [hidle] at h; cases h
  set v' : View := { v with cursors := ownCursors v.cursors } with hv'
  have hu' : v'.Unworked := hu
  refine Does.bind (R := fun _ => Held R v') ?_ (fun _ => ?_)
  · refine each (fun s h => at_state ((does_cursorsOfTxn h.tidy.toWired).post (fun _ s' hs => ?_)) h.state)
    refine ⟨?_, ⟨⟨h.tidy.work, h.tidy.workIn, fun k hk => h.tidy.svc k (List.mem_of_mem_filter hk),
      fun k hk => h.tidy.own k (List.mem_of_mem_filter hk)⟩, h.tidy.txn⟩, h.fair.alone, h.fair.other, h.fair.id,
      h.fair.reads⟩
    have htxns : v'.txns = v.txns := by rw [View.txns, View.txns, hv', ownTxns_ownCursors]
    rw [htxns]
    exact hs
  · refine (Held.uses (v := v') rfl ht).bind (fun _ => Does.bind (R := fun _ => Held R v') (Held.quiet ?_)
      (fun _ => ?_))
    · exact fun _ => rfl
    · refine ite (fun _ => Held.replied.post (fun _ _ h => ⟨v', h⟩)) (fun _ => ?_)
      exact ite (fun _ => does_failed hu') (fun _ => does_failed hu')

/-- **A ROLLBACK keeps what its connection has open.** -/
theorem does_doRollback (hidle : v.work = none) : Does (Held R v) (doRollback a r) (fun _ s => ∃ v', Held R v' s) := by
  have hu : v.Unworked := fun h => by rw [hidle] at h; cases h
  have hall : Does (Held R v) (rollbackAll r) (fun _ s => ∃ v', Held R v' s) :=
    (does_txnEnd hu).bind (fun _ => Held.replied.post (fun _ _ h => ⟨_, h⟩))
  refine get (fun s h => ?_)
  have htx : s.c.tx = v.tx := congrArg View.tx h.state.view
  have htxn : s.c.txn = v.txn := congrArg View.txn h.state.view
  dsimp only
  rw [htx, htxn]
  refine at_state ?_ h
  rcases v.tx with _ | _ | _ | _ | _
  · exact Held.replied.post (fun _ _ h => ⟨v, h⟩)
  · refine ite (fun _ => Does.bind (R := fun _ => Held R v) (Held.quiet ?_) (fun _ => ?_)) (fun _ => hall)
    · exact fun _ => rfl
    · exact Held.replied.post (fun _ _ h => ⟨v, h⟩)
  · refine ite (fun _ => ?_) (fun _ => hall)
    rcases ht : v.txn with _ | t
    · exact Does.pure (fun _ h => ⟨v, h⟩)
    · exact does_rollbackNested hidle ht
  · exact hall
  · exact hall

/-! ## Every request -/

theorem does_doPrepare : Does (Held R v) (doPrepare a r) (fun _ => Held R v) := by
  refine get (fun s h => at_state ?_ h)
  rcases s.o.svc with _ | svc
  · exact Held.replied
  refine ite (fun _ => Held.replied) (fun _ => ite (fun _ => Held.replied) (fun _ => ?_))
  rcases a.prepare with e | d
  · exact Held.replied
  · exact Held.replied

theorem does_refuse {code : Code} {m : Bytes} : Does (Held R v) (refuse id code m) (fun _ => Held R v) := by
  refine Held.replied.bind (fun _ => Held.quiet ?_)
  exact fun _ => rfl

theorem does_doHello : Does (Held R v) (doHello r) (fun _ => Held R v) := by
  unfold doHello
  split
  · refine ite (fun _ => ?_) (fun _ => does_refuse)
    refine Does.bind (R := fun _ => Held R v) (Held.quiet ?_) (fun _ => ?_)
    · exact fun _ => rfl
    · exact get (fun s h => at_state Held.replied h)
  · exact does_refuse

theorem does_answerOther (hidle : v.work = none) :
    Does (Held R v) (answerOther a r) (fun _ s => ∃ v', Held R v' s) := by
  unfold answerOther
  split
  · exact Held.replied.post (fun _ _ h => ⟨v, h⟩)
  · refine Does.post (Held.quiet ?_) (fun _ _ h => ⟨v, h⟩)
    exact fun _ => rfl
  · exact does_doCommit hidle
  · exact does_doRollback hidle
  · exact does_doFetch
  · exact does_doClose
  · exact does_doPrepare.post (fun _ _ h => ⟨v, h⟩)
  · exact Held.replied.post (fun _ _ h => ⟨v, h⟩)
  · exact Held.replied.post (fun _ _ h => ⟨v, h⟩)
  · exact Held.replied.post (fun _ _ h => ⟨v, h⟩)

theorem does_touch : Does (Held R v) touch (fun _ => Held R v) :=
  get (fun _ h => at_state (Held.quiet (fun _ => rfl)) h)

/-- **Every request keeps what its connection has open**, where no read of it works. -/
theorem does_handleReq (hidle : v.work = none) : Does (Held R v) (handleReq a r) (fun _ s => ∃ v', Held R v' s) := by
  refine get (fun _ h => at_state ?_ h)
  refine ite (fun _ => does_touch.bind (fun _ => ?_)) (fun _ => ite (fun _ => ?_) (fun _ => ?_))
  · split
    · exact does_doBegin hidle
    · exact does_doQuery hidle
    · exact (does_answerOther hidle).bind (fun _ => Does.pure (fun _ h => h))
  · exact does_doHello.bind (fun _ => Does.pure (fun _ h => ⟨v, h⟩))
  · exact does_refuse.bind (fun _ => Does.pure (fun _ h => ⟨v, h⟩))

/-! ## A connection's turn in the loop -/

theorem does_processHead (hidle : v.work = none) : Does (Held R v) (processHead a) (fun _ s => ∃ v', Held R v' s) := by
  refine get (fun s h => at_state ?_ h)
  dsimp only
  rcases s.c.reqs with _ | ⟨r, rs⟩
  · exact Does.pure (fun _ h => ⟨v, h⟩)
  refine (does_handleReq hidle).bind (fun out => ?_)
  cases out with
  | done =>
    refine each (fun s₁ ⟨v', h₁⟩ => at_state ?_ h₁)
    refine Does.bind (R := fun _ => Held R v') (Held.quiet ?_) (fun _ => (Held.quiet ?_).post (fun _ _ h => ⟨v', h⟩))
    · exact fun _ => rfl
    · exact fun _ => rfl
  | parked | working => exact Does.pure (fun _ h => h)

theorem does_popAny : Does (fun s => ∃ v, Held R v s) popHead (fun _ s => ∃ v, Held R v s) :=
  each (fun _ ⟨v, h⟩ => at_state (Does.post (Held.quiet (fun _ => rfl)) (fun _ _ h => ⟨v, h⟩)) h)

theorem does_sliceRefused {e : GsqlError} (hv : v.Tidy) (hf : Fair R v) :
    Does (At R v.txns v.idled.curs v.idled (slot R v)) (sliceRefused e v.workTxn) (fun _ s => ∃ v', Held R v' s) := by
  rcases ho : v.workTxn with _ | t
  · have hperm := v.txns_perm
    rw [ho] at hperm
    refine Does.pre (I := Held R v.idled) ?_ (fun _ h => ⟨h.perm hperm (List.Perm.refl _), hv.idled, hf.idled⟩)
    refine ite (fun _ => ?_) (fun _ => Does.pure (fun _ h => ⟨_, h⟩))
    exact (does_txnFailed (fun hw => absurd hw (by simp [View.idled]))).post (fun _ _ h => ⟨_, h⟩)
  · rw [sliceRefused, show abort t = abortOwn v.workTxn by rw [ho]; rfl]
    exact (does_abortWork hv).post (fun _ _ hs => ⟨v.idled, hs, hv.idled, hf.idled⟩)

/-- **A slice keeps what its connection has open.** -/
theorem does_workStep {a : SliceAnswer} : Does (Held R v) (workStep a) (fun _ s => ∃ v', Held R v' s) := by
  refine get (fun s h => ?_)
  have hwork : s.c.work = v.work := congrArg View.work h.state.view
  have hown : s.c.workTxn = v.workTxn := congrArg View.workTxn h.state.view
  dsimp only
  rw [hwork, hown]
  have hv := h.tidy
  have hf := h.fair
  rcases hw : v.work with _ | k
  · exact at_state (Does.pure (fun _ h => ⟨v, h⟩)) h
  have hresumed : Does (At R v.txns v.curs v (slot R v)) (ask (.resumed k))
      (fun _ => At R v.txns v.curs v (slot R v)) :=
    does_resumed hv hw
  have hin : (some k).isSome → v.workTxn = none → v.idled.txn.isSome := fun _ => hv.workIn (by rw [hw]; rfl)
  refine at_state ?_ h.state
  rcases a with _ | e | ⟨body, more⟩
  · exact hresumed.post (fun _ _ hs => ⟨v, hs, hv, hf⟩)
  · refine hresumed.bind (fun _ => (does_closed_work hv hw).bind (fun _ => does_clearWork.bind (fun _ => ?_)))
    exact (does_sliceRefused hv hf).bind (fun _ => does_saysAny.bind (fun _ => does_popAny))
  · cases more with
    | true =>
      refine hresumed.bind (fun _ => does_clearWork.bind (fun _ => Does.bind ?_ (fun _ => does_popAny)))
      refine (does_sendRows (some k) _ hv.idled hf.idled hin).pre (fun _ hs => hs.perm v.txns_perm ?_)
      have hid : v.workOn.id = (v.workTxn.or v.idled.txn).getD 0 := by
        rw [View.workOn]
        cases v.workTxn <;> rfl
      rw [View.curs_working hw, hid]
      exact List.Perm.refl _
    | false =>
      refine hresumed.bind (fun _ => (does_closed_work hv hw).bind (fun _ => does_clearWork.bind (fun _ =>
        Does.bind ?_ (fun _ => does_popAny))))
      exact (does_sendRows none _ hv.idled hf.idled (fun h => by cases h)).pre
        (fun _ hs => hs.perm v.txns_perm (List.Perm.refl _))

theorem does_cancelHead : Does (Held R v) (cancelHead r) (fun _ s => ∃ v', Held R v' s) := by
  refine get (fun s h => at_state ?_ h)
  refine ite (fun _ => ?_) (fun _ => ite (fun _ => ?_) (fun _ => Does.pure (fun _ h => ⟨v, h⟩)))
  · refine does_workEnd.bind (fun _ => Held.replied.bind (fun _ => ?_))
    exact (does_popAny.bind (fun _ => Does.pure (fun _ h => h))).pre (fun _ h => ⟨_, h⟩)
  · refine Held.replied.bind (fun _ => Does.bind (R := fun _ => Held R v) (Held.quiet ?_) (fun _ => ?_))
    · exact fun _ => rfl
    · exact (Held.steps does_fifoRemove).bind (fun _ => Does.pure (fun _ h => ⟨v, h⟩))

theorem does_enqueue : Does (Held R v) (enqueue r) (fun _ s => ∃ v', Held R v' s) := by
  have hput : ∀ {q : Req} {u : View}, Does (Held R u) (putReq q) (fun _ s => ∃ v', Held R v' s) := fun {_ u} =>
    Does.post (Held.quiet (fun _ => rfl)) (fun _ _ h => ⟨u, h⟩)
  refine ite (fun _ => does_cancelHead.bind (fun _ => ?_)) (fun _ => hput)
  exact each (fun _ ⟨_, h⟩ => at_state hput h)

theorem does_malformed {short : Bool} : Does (Held R v) (malformed short) (fun _ s => ∃ v', Held R v' s) := by
  have hclose : Does (Held R v) (onConn fun c => { c with closing := true }) (fun _ s => ∃ v', Held R v' s) :=
    Does.post (Held.quiet (fun _ => rfl)) (fun _ _ h => ⟨v, h⟩)
  exact ite (fun _ => Held.replied.bind (fun _ => hclose)) (fun _ => Held.replied.bind (fun _ => hclose))

theorem does_timeoutCursors : ∀ {ks : List Cursor} {v : View}, ks.Subperm v.cursors →
    Does (Held R v) (timeoutCursors ks) (fun _ s => ∃ v', Held R v' s)
  | [], v, _ => Does.pure (fun _ h => ⟨v, h⟩)
  | k :: ks, v, hks => by
    refine get (fun s h => at_state ?_ h)
    have hk : k ∈ v.cursors := hks.subset List.mem_cons_self
    have hrest : ks.Subperm v.cursors := (List.sublist_cons_self k ks).subperm.trans hks
    refine ite (fun _ => ?_) (fun _ => does_timeoutCursors hrest)
    refine Does.bind (R := fun _ => Held R v) (Held.quiet ?_) (fun _ => (does_cursorDrop hk).bind (fun _ => ?_))
    · exact fun _ => rfl
    · refine does_timeoutCursors (v := v.without k) ?_
      have herase := hks.erase k
      rwa [List.erase_cons_head] at herase

theorem does_timeoutTxn : Does (fun s => Held R v s ∧ (txnExpired s.o s.c = true → v.Unworked)) timeoutTxn
    (fun _ s => ∃ v', Held R v' s) := by
  refine get (fun s ⟨h, hu⟩ => at_state (ite (fun hexp => ?_) (fun _ => Does.pure (fun _ h => ⟨v, h⟩))) h)
  refine (does_txnEnd (hu hexp)).bind (fun _ => each (fun s₁ h₁ => at_state ?_ h₁.state))
  refine (does_onConn (u := v.ended .timedOut) ?_).post (fun _ _ hs => ⟨v.ended .timedOut, hs, ?_, ?_⟩)
  · exact fun c hc => congrArg (fun u : View => { u with tx := Tx.timedOut }) hc
  · exact h.tidy.ended (hu hexp) (by decide)
  · exact h.fair.ended (by decide)

/-- **What times out uses and ends open handles**, where no read works inside a transaction that does. -/
theorem does_timeoutConn : Does (fun s => Held R v s ∧ (txnExpired s.o s.c = true → v.Unworked)) timeoutConn
    (fun _ s => ∃ v', Held R v' s) := by
  refine does_timeoutTxn.bind (fun _ => each (fun s ⟨v', h⟩ => at_state ?_ h))
  refine get (fun s h => at_state (does_timeoutCursors ?_) h)
  have hcur : s.c.cursors = v'.cursors := congrArg View.cursors h.state.view
  rw [hcur]

/-- **A connection cleaned up has nothing open**, and the slot is another's or free. -/
theorem does_connCleanup : Does (Held R v) connCleanup (fun _ s => ∃ v', At R [] [] v' R.writer s) := by
  refine get (fun s h => at_state ?_ h)
  refine Does.bind (R := fun _ => Held R v) ?_ (fun _ => ?_)
  · refine Held.steps (does_onShared ?_ ?_ ?_)
    · exact fun _ => rfl
    · exact fun _ => rfl
    · exact fun _ => rfl
  refine does_workEnd.bind (fun _ => (does_txnEnd (fun hw => absurd hw (by simp [View.idled]))).bind (fun _ => ?_))
  set u := v.idled.ended .none with hu
  refine get (fun s₁ h₁ => at_state ?_ h₁.state)
  have hcur : s₁.c.cursors = u.cursors := congrArg View.cursors h₁.state.view
  have hslot : slot R u = R.writer := if_neg (show Tx.none ≠ .write by decide)
  dsimp only
  rw [hcur, hslot]
  have hon : ∀ k ∈ u.cursors, OnTxn none [] k := fun k hk => by
    refine ⟨h₁.tidy.svc k hk, fun ho => ?_⟩
    have := (List.mem_filter.1 hk).2
    rw [ho] at this
    cases this
  refine (does_onConn (u := { u with cursors := [] }) ?_).bind (fun _ => Does.bind (R := fun _ =>
    At R [] [] { u with cursors := [] } R.writer) ?_ (fun _ => ?_))
  · exact fun c hc => congrArg (fun u : View => { u with cursors := [] }) hc
  · refine (does_freeAll hon (fun k hk => by cases hk)).pre (fun _ hs => ?_)
    rw [List.append_nil, List.append_nil]
    exact hs
  · refine does_leaveQueue.bind (fun _ => (does_onConn (u := { u with cursors := [] }) ?_).post (fun _ _ hs => ⟨_, hs⟩))
    exact fun c hc => hc

end

end Owner
end Gbasic
