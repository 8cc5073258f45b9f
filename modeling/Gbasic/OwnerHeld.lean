import Gbasic.OwnerLoop
import Gbasic.Prog
/-!
# OwnerHeld — what a connection has open

A connection's transaction, its working read and its cursors are the handles it has open (`View.txns`, `View.curs`).
Every turn uses them only while they are open and leaves those of the other connections (`Rest`) alone.
-/
namespace Gbasic
namespace Owner

open Lsm (Status)
open Key (Bytes)
open Does (modify ite get at_state each)
open List (filterMap_cons_some mem_cons_self mem_append_right append_assoc mem_filter)

variable {f : Conn → Conn} {a : Asked} {t : Txn} {k : Cursor} {txn : Option Nat} {tx : Tx}

/-- The calls with handles among what was asked. -/
def calls (o : Shared) : List Call := o.asked.filterMap Asked.call

structure View where
  id : Nat
  tx : Tx
  txn : Option Nat
  work : Option Nat
  workTxn : Option Nat
  cursors : List Cursor

def Conn.view (c : Conn) : View := ⟨c.id, c.tx, c.txn, c.work, c.workTxn, c.cursors⟩

def ownTxns (ks : List Cursor) : List Txn := ks.filterMap (fun k => k.own.map (fun t => ⟨t, false⟩))

def svcCurs (txn : Option Nat) (ks : List Cursor) : List Cur :=
  ks.filterMap (fun k => k.svc.map (fun c => ⟨c, (k.own.or txn).getD 0⟩))

namespace View

/-- The transactions a connection has open. -/
def txns (v : View) : List Txn :=
  v.txn.toList.map (fun t => ⟨t, decide (v.tx = .write)⟩) ++
  (v.workTxn.toList.map (fun t => ⟨t, false⟩) ++ ownTxns v.cursors)

/-- The cursors it has open. -/
def curs (v : View) : List Cur :=
  v.work.toList.map (fun k => ⟨k, (v.workTxn.or v.txn).getD 0⟩) ++ svcCurs v.txn v.cursors

structure Wired (v : View) : Prop where
  work : v.work = none → v.workTxn = none
  workIn : v.work.isSome → v.workTxn = none → v.txn.isSome
  svc : ∀ k ∈ v.cursors, k.svc.isSome
  own : ∀ k ∈ v.cursors, k.own = none → v.txn.isSome

structure Tidy (v : View) : Prop extends Wired v where
  txn : v.txn.isSome ↔ v.tx = .read ∨ v.tx = .write

end View

structure Rest where
  part : Call.Part
  writer : Option Nat
  id : Nat

/-- A state in a turn: the handles the turn has open, the connection as far as they are in it, and the writer slot. -/
structure At (R : Rest) (T : List Txn) (K : List Cur) (v : View) (w : Option Nat) (s : Turn) : Prop where
  holds : Call.Holds (calls s.o) s.o.handles T K R.part
  view : s.c.view = v
  writer : s.o.writer = w

def slot (R : Rest) (v : View) : Option Nat := if v.tx = .write then some v.id else R.writer

structure Fair (R : Rest) (v : View) : Prop where
  alone : v.tx = .write → R.writer = none
  other : R.writer ≠ some v.id
  id : v.id = R.id
  reads : R.writer = none → ∀ t ∈ R.part.txns, t.write = false

structure Held (R : Rest) (v : View) (s : Turn) : Prop where
  state : At R v.txns v.curs v (slot R v) s
  tidy : v.Tidy
  fair : Fair R v

section
variable {R : Rest} {T T' : List Txn} {K K' : List Cur} {v v' : View} {w w' : Option Nat} {s : Turn}

/-! ## Steps of a turn -/

theorem At.perm (h : At R T K v w s) (hT : T.Perm T') (hK : K.Perm K') : At R T' K' v w s :=
  ⟨h.holds.perm hT hK, h.view, h.writer⟩

theorem does_onConn {u : View} (hf : ∀ c : Conn, c.view = v → (f c).view = u) :
    Does (At R T K v w) (onConn f) (fun _ => At R T K u w) :=
  modify (fun s h => ⟨h.holds, hf s.c h.view, h.writer⟩)

theorem does_quiet (hf : ∀ c : Conn, (f c).view = c.view) :
    Does (At R T K v w) (onConn f) (fun _ => At R T K v w) := does_onConn (fun c hc => (hf c).trans hc)

theorem does_onShared {f : Shared → Shared} (ha : ∀ o, (f o).asked = o.asked) (hh : ∀ o, (f o).handles = o.handles)
    (hw : ∀ o, (f o).writer = o.writer) : Does (At R T K v w) (onShared f) (fun _ => At R T K v w) := by
  refine modify (fun s h => ⟨?_, h.view, (hw s.o).trans h.writer⟩)
  show Call.Holds (List.filterMap Asked.call (f s.o).asked) (f s.o).handles T K R.part
  rw [ha, hh]
  exact h.holds

theorem does_ask {x : Call} (ha : a.call = some x)
    (h : ∀ l n, Call.Holds l n T K R.part → Call.Holds (x :: l) n T' K' R.part) :
    Does (At R T K v w) (ask a) (fun _ => At R T' K' v w) := by
  refine modify (fun s hs => ⟨?_, hs.view, hs.writer⟩)
  show Call.Holds (List.filterMap Asked.call (a :: s.o.asked)) s.o.handles T' K' R.part
  rw [filterMap_cons_some ha]
  exact h _ _ hs.holds

theorem does_uses (ha : a.call = some (.uses t.id)) (ht : t ∈ T) :
    Does (At R T K v w) (ask a) (fun _ => At R T K v w) := does_ask ha (fun _ _ h => h.uses ht)

theorem does_askIf {b : Bool} (ha : a.call = some (.uses t.id)) (ht : t ∈ T) :
    Does (At R T K v w) (askIf b a) (fun _ => At R T K v w) :=
  ite (fun _ => does_uses ha ht) (fun _ => Does.pure (fun _ h => h))

theorem does_looks {k : Cur} (ha : a.call = some (.looks k.id)) (hk : k ∈ K) (ht : t ∈ T) (hkt : t.id = k.txn) :
    Does (At R T K v w) (ask a) (fun _ => At R T K v w) :=
  does_ask ha (fun _ _ h => h.looks hk ht hkt)

theorem does_ends (ha : a.call = some (.ends t.id)) (hT : T.Perm (t :: T')) (hK : Call.Inside T' K) :
    Does (At R T K v w) (ask a) (fun _ => At R T' K v w) :=
  does_ask ha (fun _ _ h => (h.perm hT (List.Perm.refl _)).ends hK)

theorem does_closes {k : Cur} (hK : K.Perm (k :: K')) (ht : t ∈ T) (hkt : t.id = k.txn) :
    Does (At R T K v w) (ask (.closed k.id)) (fun _ => At R T K' v w) :=
  does_ask rfl (fun _ _ h => (h.perm (List.Perm.refl _) hK).closes ht hkt)

theorem does_outFrame {id : Nat} {r : Reply} : Does (At R T K v w) (outFrame id r) (fun _ => At R T K v w) :=
  does_quiet (fun _ => rfl)

theorem does_sendError {id : Nat} {code : Code} {m : Bytes} :
    Does (At R T K v w) (sendError id code m) (fun _ => At R T K v w) := does_outFrame

theorem does_beginTxn {write : Bool} {st : Status} (hw : write = true → (∀ t ∈ T, t.write = false) ∧
    ∀ t ∈ R.part.txns, t.write = false) :
    Does (At R T K v w) (beginTxn write st) (fun o => match o with
      | none => At R T K v w
      | some t => At R (⟨t, write⟩ :: T) K v w) := by
  unfold beginTxn
  refine ite (fun _ => ?_) (fun _ => Does.pure (fun _ h => h))
  intro s h
  exact ⟨h.holds.begins write hw, h.view, h.writer⟩

theorem does_openCursor (ht : t ∈ T) :
    Does (At R T K v w) (openCursor t.id) (fun k => At R T (⟨k, t.id⟩ :: K) v w) := by
  intro s h
  exact ⟨h.holds.opens ht, h.view, h.writer⟩

/-- What a run left open: a cursor on the transaction, where it has more. -/
def Ran.curs (t : Nat) : Ran → List Cur
  | .working k => [⟨k, t⟩]
  | .rows _ (some k) => [⟨k, t⟩]
  | _ => []

theorem does_runStatement {a : Answers} {auto : Bool} {q : Statement} (ht : t ∈ T) :
    Does (At R T K v w) (runStatement a t.id auto q) (fun r s => At R T (r.curs t.id ++ K) v w s ∧
      ∀ k, r = .working k → q.sliced = true) := by
  unfold runStatement
  refine get (fun s hs => at_state ?_ hs)
  refine (does_uses rfl ht).bind (fun _ => ?_)
  generalize a.run q.sliced = answer
  revert answer
  generalize q.sliced = sliced
  intro answer
  cases answer with
  | refused e partWay => exact Does.pure (fun _ h => ⟨h, fun k hk => by cases hk⟩)
  | working => exact (does_openCursor ht).bind (fun k => Does.pure (fun _ h => ⟨h, fun _ _ => rfl⟩))
  | rows body more =>
    cases more with
    | true => exact (does_openCursor ht).bind (fun k => Does.pure (fun _ h => ⟨h, fun k hk => by cases hk⟩))
    | false => exact Does.pure (fun _ h => ⟨h, fun k hk => by cases hk⟩)
  | done affected warnings => exact Does.pure (fun _ h => ⟨h, fun k hk => by cases hk⟩)

/-! ## Cursors freed -/

def OnTxn (txn : Option Nat) (T : List Txn) (k : Cursor) : Prop :=
  k.svc.isSome ∧ (k.own = none → ∃ t ∈ T, txn = some t.id)

theorem inside_svcCurs {txn : Option Nat} : ∀ {ks : List Cursor}, (∀ k ∈ ks, OnTxn txn T k) →
    Call.Inside (ownTxns ks ++ T) (svcCurs txn ks)
  | [], _ => fun k hk => by cases hk
  | k :: ks, h => by
    obtain ⟨hsvc, hown⟩ := h k mem_cons_self
    have ih := inside_svcCurs (fun k hk => h k (List.mem_cons_of_mem _ hk))
    obtain ⟨c, hc⟩ := Option.isSome_iff_exists.1 hsvc
    intro x hx
    rw [svcCurs, filterMap_cons_some (by rw [hc]; rfl)] at hx
    rcases ho : k.own with _ | t
    · rw [ownTxns, List.filterMap_cons_none (by rw [ho]; rfl)]
      rcases List.mem_cons.1 hx with rfl | hx
      · obtain ⟨u, hu, ht⟩ := hown ho
        exact ⟨u, mem_append_right _ hu, by simp [ho, ht]⟩
      · exact ih x hx
    · rw [ownTxns, filterMap_cons_some (by rw [ho]; rfl)]
      rcases List.mem_cons.1 hx with rfl | hx
      · exact ⟨_, mem_cons_self, by simp [ho]⟩
      · obtain ⟨u, hu, hid⟩ := ih x hx
        exact ⟨u, List.mem_cons_of_mem _ hu, hid⟩

theorem ownTxns_cons (k : Cursor) (ks : List Cursor) : ownTxns (k :: ks) = ownTxns [k] ++ ownTxns ks :=
  List.filterMap_append (l := [k])

theorem svcCurs_cons (txn : Option Nat) (k : Cursor) (ks : List Cursor) :
    svcCurs txn (k :: ks) = svcCurs txn [k] ++ svcCurs txn ks := List.filterMap_append (l := [k])

theorem ownTxns_one (k : Cursor) : ownTxns [k] = k.own.toList.map (fun t => ⟨t, false⟩) := by
  rcases ho : k.own with _ | t
  · exact List.filterMap_cons_none (by rw [ho]; rfl)
  · exact filterMap_cons_some (by rw [ho]; rfl)

theorem svcCurs_one {c : Nat} (hc : k.svc = some c) :
    svcCurs txn [k] = [⟨c, (k.own.or txn).getD 0⟩] := filterMap_cons_some (by rw [hc]; rfl)

theorem OnTxn.mem (h : OnTxn txn T k) : ∃ t ∈ ownTxns [k] ++ T, t.id = (k.own.or txn).getD 0 := by
  rw [ownTxns_one]
  rcases ho : k.own with _ | t
  · obtain ⟨u, hu, ht⟩ := h.2 ho
    exact ⟨u, mem_append_right _ hu, by rw [ht]; rfl⟩
  · exact ⟨⟨t, false⟩, by simp, rfl⟩

theorem does_abortOwn {own : Option Nat} (hK : Call.Inside T K) :
    Does (At R (own.toList.map (fun t => ⟨t, false⟩) ++ T) K v w) (abortOwn own) (fun _ => At R T K v w) := by
  rcases own with _ | t
  · exact Does.pure (fun _ h => h)
  · exact does_ends (t := ⟨t, false⟩) rfl (List.Perm.refl _) hK

theorem does_closed {c : Nat} (hk : OnTxn txn T k) (hc : k.svc = some c) :
    Does (At R (ownTxns [k] ++ T) (svcCurs txn [k] ++ K) v w) (ask (.closed c))
      (fun _ => At R (ownTxns [k] ++ T) K v w) := by
  obtain ⟨u, hu, hid⟩ := hk.mem
  rw [svcCurs_one hc]
  exact does_closes (k := ⟨c, (k.own.or txn).getD 0⟩) (List.Perm.refl _) hu hid

theorem does_cursorFree (hk : OnTxn txn T k) (hK : Call.Inside T K) :
    Does (At R (ownTxns [k] ++ T) (svcCurs txn [k] ++ K) v w) (cursorFree k) (fun _ => At R T K v w) := by
  obtain ⟨c, hc⟩ := Option.isSome_iff_exists.1 hk.1
  rw [cursorFree, hc]
  refine (does_closed hk hc).bind (fun _ => ?_)
  rw [ownTxns_one]
  exact does_abortOwn hK

theorem does_freeAll {txn : Option Nat} : ∀ {ks : List Cursor}, (∀ k ∈ ks, OnTxn txn T k) → Call.Inside T K →
    Does (At R (ownTxns ks ++ T) (svcCurs txn ks ++ K) v w) (freeAll ks) (fun _ => At R T K v w)
  | [], _, _ => Does.pure (fun _ h => h)
  | k :: ks, h, hK => by
    have hks : ∀ k ∈ ks, OnTxn txn T k := fun k hk => h k (List.mem_cons_of_mem _ hk)
    have hk : OnTxn txn (ownTxns ks ++ T) k := by
      refine ⟨(h k mem_cons_self).1, fun ho => ?_⟩
      obtain ⟨t, ht, he⟩ := (h k mem_cons_self).2 ho
      exact ⟨t, mem_append_right _ ht, he⟩
    have hinside : Call.Inside (ownTxns ks ++ T) (svcCurs txn ks ++ K) :=
      (inside_svcCurs hks).append (hK.mono (List.subset_append_right _ _))
    rw [freeAll, ownTxns_cons, svcCurs_cons, append_assoc, append_assoc]
    exact (does_cursorFree hk hinside).bind (fun _ => does_freeAll hks hK)

/-! ## A transaction's end -/

def ownCursors (ks : List Cursor) : List Cursor := ks.filter (fun k => k.own.isSome)

theorem ownTxns_ownCursors : ∀ ks : List Cursor, ownTxns (ownCursors ks) = ownTxns ks
  | [] => rfl
  | k :: ks => by
    have ih := ownTxns_ownCursors ks
    rcases ho : k.own with _ | t
    · rw [ownCursors, List.filter_cons_of_neg (by simp [ho])]
      rw [show ownTxns (k :: ks) = ownTxns ks from List.filterMap_cons_none (by rw [ho]; rfl)]
      exact ih
    · rw [ownCursors, List.filter_cons_of_pos (by simp [ho])]
      rw [show ownTxns (k :: ks) = ⟨t, false⟩ :: ownTxns ks from filterMap_cons_some (by rw [ho]; rfl)]
      rw [← ih]
      exact filterMap_cons_some (by rw [ho]; rfl)

theorem ownTxns_borrowed (ks : List Cursor) : ownTxns (ks.filter (fun k => k.own.isNone)) = [] := by
  rw [ownTxns, List.filterMap_eq_nil_iff]
  intro k hk
  have hnone := (mem_filter.1 hk).2
  rw [Option.isNone_iff_eq_none] at hnone
  rw [hnone]
  rfl

theorem svcCurs_of_own (txn txn' : Option Nat) {ks : List Cursor} (h : ∀ k ∈ ks, k.own.isSome) :
    svcCurs txn ks = svcCurs txn' ks := by
  refine List.filterMap_congr (fun k hk => ?_)
  obtain ⟨t, ht⟩ := Option.isSome_iff_exists.1 (h k hk)
  rw [ht]
  rfl

theorem svcCurs_ownCursors (txn txn' : Option Nat) (ks : List Cursor) :
    svcCurs txn (ownCursors ks) = svcCurs txn' (ownCursors ks) :=
  svcCurs_of_own txn txn' (fun _ hk => (mem_filter.1 hk).2)

theorem svcCurs_split (txn : Option Nat) (ks : List Cursor) :
    (svcCurs txn ks).Perm (svcCurs txn (ks.filter (fun k => k.own.isNone)) ++ svcCurs txn (ownCursors ks)) := by
  have hnot : ∀ k : Cursor, k.own.isSome = !k.own.isNone := fun k => by cases k.own <;> rfl
  have hperm := List.filter_append_perm (fun k : Cursor => k.own.isNone) ks
  rw [svcCurs, svcCurs, svcCurs, ← List.filterMap_append, ownCursors]
  simp only [hnot]
  exact hperm.symm.filterMap _

namespace View

def Unworked (v : View) : Prop := v.work.isSome → v.workTxn.isSome

def ended (v : View) (tx : Tx) : View := { v with tx := tx, txn := none, cursors := ownCursors v.cursors }

theorem Wired.onTxn (h : v.Wired) : ∀ k ∈ v.cursors, OnTxn v.txn v.txns k := fun k hk => by
  refine ⟨h.svc k hk, fun ho => ?_⟩
  obtain ⟨t, ht⟩ := Option.isSome_iff_exists.1 (h.own k hk ho)
  exact ⟨⟨t, decide (v.tx = .write)⟩, by simp [View.txns, ht], ht⟩

theorem ownTxns_subset : ownTxns v.cursors ⊆ v.txns :=
  fun _ ht => mem_append_right _ (mem_append_right _ ht)

theorem Wired.inside (h : v.Wired) : Call.Inside v.txns v.curs := by
  refine Call.Inside.append (fun k hk => ?_) ((inside_svcCurs h.onTxn).mono ?_)
  · obtain ⟨n, hn, rfl⟩ := List.mem_map.1 hk
    have hwork : v.work = some n := by simpa using hn
    rcases ho : v.workTxn with _ | t
    · obtain ⟨t, ht⟩ := Option.isSome_iff_exists.1 (h.workIn (by simp [hwork]) ho)
      exact ⟨⟨t, decide (v.tx = .write)⟩, by simp [View.txns, ht], by simp [ht]⟩
    · exact ⟨⟨t, false⟩, by simp [View.txns, ho], by simp⟩
  · intro t ht
    rcases List.mem_append.1 ht with ht | ht
    · exact ownTxns_subset ht
    · exact ht

theorem Wired.ended (h : v.Wired) (hv : v.Unworked) : (v.ended tx).Wired where
  work := h.work
  workIn hw ho := by
    have := hv hw
    rw [show v.workTxn = none from ho] at this
    cases this
  svc k hk := h.svc k (List.mem_of_mem_filter hk)
  own k hk ho := by
    have := (mem_filter.1 hk).2
    rw [ho] at this
    cases this

theorem Tidy.ended (h : v.Tidy) (hv : v.Unworked) (htx : tx ≠ .read ∧ tx ≠ .write) : (v.ended tx).Tidy where
  toWired := h.toWired.ended hv
  txn := by simp [View.ended, htx]

end View

theorem does_cursorsOfTxn (hv : v.Wired) : Does (At R v.txns v.curs v w) cursorsOfTxn
    (fun _ => At R v.txns ({ v with cursors := ownCursors v.cursors } : View).curs
      { v with cursors := ownCursors v.cursors } w) := by
  unfold cursorsOfTxn
  refine get (fun s hs => at_state ?_ hs)
  have hcur : s.c.cursors = v.cursors := congrArg View.cursors hs.view
  rw [hcur]
  refine (does_onConn (u := { v with cursors := ownCursors v.cursors }) ?_).bind (fun _ => ?_)
  · rintro c rfl
    rfl
  · set ks := v.cursors.filter (fun k => k.own.isNone) with hks
    have hon : ∀ k ∈ ks, OnTxn v.txn v.txns k := fun k hk => hv.onTxn k (List.mem_of_mem_filter hk)
    have hinside : Call.Inside v.txns ({ v with cursors := ownCursors v.cursors } : View).curs := by
      refine fun k hk => hv.inside k ?_
      rcases List.mem_append.1 hk with hk | hk
      · exact List.mem_append_left _ hk
      · exact mem_append_right _ ((svcCurs_split v.txn v.cursors).mem_iff.2 (mem_append_right _ hk))
    refine (does_freeAll hon hinside).pre (fun s h => h.perm ?_ ?_)
    · rw [hks, ownTxns_borrowed]
      exact List.Perm.refl _
    · refine ((svcCurs_split v.txn v.cursors).append_left _).trans ?_
      rw [← append_assoc]
      exact (List.perm_append_comm.append_right _).trans (by rw [append_assoc]; exact List.Perm.refl _)

def freed (v : View) (w : Option Nat) : Option Nat := if w = some v.id then none else w

theorem does_leaveSlot : Does (At R T K v w) leaveSlot (fun _ => At R T K v (freed v w)) := by
  unfold leaveSlot
  refine get (fun s hs => at_state (modify (fun s' h => ⟨h.holds, h.view, ?_⟩)) hs)
  have hid : s.c.id = v.id := congrArg View.id hs.view
  show (if s'.o.writer = some s.c.id then none else s'.o.writer) = freed v w
  rw [h.writer, hid, freed]

theorem txns_ended {tx : Tx} :
    v.txns = v.txn.toList.map (fun t => ⟨t, decide (v.tx = .write)⟩) ++ (v.ended tx).txns := by
  simp [View.txns, View.ended, ownTxns_ownCursors]

theorem curs_ended (hu : v.Unworked) :
    ({ v with cursors := ownCursors v.cursors } : View).curs = (v.ended tx).curs := by
  have hwork : v.work.toList.map (fun k => (⟨k, (v.workTxn.or v.txn).getD 0⟩ : Cur)) =
      v.work.toList.map (fun k => ⟨k, (v.workTxn.or none).getD 0⟩) := by
    rcases hw : v.work with _ | k
    · rfl
    · obtain ⟨t, ht⟩ := Option.isSome_iff_exists.1 (hu (by rw [hw]; rfl))
      rw [ht]
      rfl
  rw [View.curs, View.curs]
  exact congrArg₂ _ hwork (svcCurs_ownCursors _ _ _)

theorem view_ended {c : Conn} (hc : c.view = { v with cursors := ownCursors v.cursors }) :
    ({ c with txn := none } : Conn).view = v.ended v.tx := by
  simp only [Conn.view, View.mk.injEq] at hc
  obtain ⟨h1, h2, h3, h4, h5, h6⟩ := hc
  simp [Conn.view, View.ended, h1, h2, h4, h5, h6]

theorem does_txnDrop (hv : v.Wired) (hu : v.Unworked) : Does (At R v.txns v.curs v w) txnDrop
    (fun _ => At R (v.ended .none).txns (v.ended .none).curs (v.ended v.tx) (freed v w)) := by
  unfold txnDrop
  refine (does_cursorsOfTxn hv).bind (fun _ => get (fun s hs => at_state ?_ hs))
  have htxn : s.c.txn = v.txn := congrArg View.txn hs.view
  rw [htxn, curs_ended hu]
  refine Does.bind (R := fun _ => At R (v.ended .none).txns (v.ended .none).curs
    { v with cursors := ownCursors v.cursors } w) ?_ (fun _ => ?_)
  · rw [@txns_ended v .none]
    rcases ht : v.txn with _ | t
    · exact Does.pure (fun _ h => h)
    · exact does_ends (t := ⟨t, decide (v.tx = .write)⟩) rfl (List.Perm.refl _) (hv.ended hu).inside
  · exact (does_onConn (fun _ hc => view_ended hc)).bind (fun _ => does_leaveSlot)

theorem freed_slot (h : Fair R v) : freed v (slot R v) = R.writer := by
  rw [freed, slot]
  by_cases hw : v.tx = .write
  · rw [if_pos hw, if_pos rfl, h.alone hw]
  · rw [if_neg hw, if_neg h.other]

theorem Fair.ended (h : Fair R v) (htx : tx ≠ .write) : Fair R (v.ended tx) :=
  ⟨fun hw => absurd hw htx, h.other, h.id, h.reads⟩

/-- **A transaction's end leaves the connection with what it had outside it**, whatever it is called after. -/
theorem does_drop_then (hf : ∀ c : Conn, (f c).view = { c.view with tx := tx }) (htx : tx ≠ .read ∧ tx ≠ .write)
    (hu : v.Unworked) : Does (Held R v) (txnDrop >>= fun _ => onConn f) (fun _ => Held R (v.ended tx)) := by
  refine each (fun s h => at_state ?_ h.state)
  refine (does_txnDrop h.tidy.toWired hu).bind (fun _ => Does.post (does_onConn (u := v.ended tx) ?_)
    (fun _ s' hs => ?_))
  · intro c hc
    rw [hf, hc]
    rfl
  · rw [freed_slot h.fair] at hs
    refine ⟨?_, h.tidy.ended hu htx, h.fair.ended htx.2⟩
    rw [slot, if_neg (show ¬ (v.ended tx).tx = .write from htx.2)]
    exact hs

theorem does_txnEnd (hu : v.Unworked) : Does (Held R v) txnEnd (fun _ => Held R (v.ended .none)) :=
  does_drop_then (fun _ => rfl) (by decide) hu

theorem does_txnFailed {why : Bytes} (hu : v.Unworked) :
    Does (Held R v) (txnFailed why) (fun _ => Held R (v.ended .failed)) :=
  does_drop_then (fun _ => rfl) (by decide) hu

/-! ## A working read's end -/

namespace View

def idled (v : View) : View := { v with work := none, workTxn := none }

theorem Tidy.idled (h : v.Tidy) : v.idled.Tidy where
  txn := h.txn
  work _ := rfl
  workIn hw := absurd hw (by simp [View.idled])
  svc := h.svc
  own := h.own

theorem txns_perm : v.txns.Perm (v.workTxn.toList.map (fun t => ⟨t, false⟩) ++ v.idled.txns) := by
  simp only [View.txns, View.idled, Option.toList_none, List.map_nil, List.nil_append, ← append_assoc]
  exact List.perm_append_comm.append_right _

def workOn (v : View) : Txn :=
  match v.workTxn with
  | some t => ⟨t, false⟩
  | none => ⟨v.txn.getD 0, decide (v.tx = .write)⟩

theorem Tidy.workOn_mem (h : v.Tidy) (hw : v.work.isSome) : v.workOn ∈ v.txns := by
  rcases ho : v.workTxn with _ | t
  · obtain ⟨t, ht⟩ := Option.isSome_iff_exists.1 (h.workIn hw ho)
    simp [View.workOn, View.txns, ho, ht]
  · simp [View.workOn, View.txns, ho]

theorem curs_working {k : Nat} (hw : v.work = some k) : v.curs = ⟨k, v.workOn.id⟩ :: v.idled.curs := by
  have hid : (v.workTxn.or v.txn).getD 0 = v.workOn.id := by
    rw [View.workOn]
    cases v.workTxn <;> rfl
  simp only [View.curs, View.idled, hw, hid]
  rfl

end View

theorem Fair.idled (h : Fair R v) : Fair R v.idled := ⟨h.alone, h.other, h.id, h.reads⟩

theorem does_resumed {k : Nat} (hv : v.Tidy) (hw : v.work = some k) :
    Does (At R v.txns v.curs v w) (ask (.resumed k)) (fun _ => At R v.txns v.curs v w) :=
  does_looks (k := ⟨k, v.workOn.id⟩) (t := v.workOn) rfl (by rw [View.curs_working hw]; exact mem_cons_self)
    (hv.workOn_mem (by rw [hw]; rfl)) rfl

theorem does_closed_work {k : Nat} (hv : v.Tidy) (hw : v.work = some k) :
    Does (At R v.txns v.curs v w) (ask (.closed k)) (fun _ => At R v.txns v.idled.curs v w) :=
  does_closes (k := ⟨k, v.workOn.id⟩) (t := v.workOn) (by rw [View.curs_working hw])
  (hv.workOn_mem (by rw [hw]; rfl)) rfl

theorem does_abortWork (hv : v.Tidy) :
    Does (At R v.txns v.idled.curs v' w) (abortOwn v.workTxn) (fun _ => At R v.idled.txns v.idled.curs v' w) := by
  have hperm := v.txns_perm
  rcases ho : v.workTxn with _ | t
  · rw [ho] at hperm
    exact Does.pure (fun _ h => h.perm hperm (List.Perm.refl _))
  · rw [ho] at hperm
    exact does_ends (t := ⟨t, false⟩) rfl hperm hv.idled.inside

theorem does_clearWork : Does (At R T K v w) clearWork (fun _ => At R T K v.idled w) :=
  does_onConn (fun c hc => by rw [← hc]; rfl)

theorem does_workEnd : Does (Held R v) workEnd (fun _ => Held R v.idled) := by
  refine each (fun s h => get (fun s' hs => ?_))
  subst hs
  have hwork : s'.c.work = v.work := congrArg View.work h.state.view
  have hown : s'.c.workTxn = v.workTxn := congrArg View.workTxn h.state.view
  rw [hwork, hown]
  rcases hw : v.work with _ | k
  · -- nothing works, and nothing changes
    have hsame : v.idled = v := by
      have := h.tidy.work hw
      cases v
      simp_all [View.idled]
    rw [hsame]
    exact Does.pure (fun _ hs => hs ▸ h)
  · refine at_state ?_ h.state
    refine (does_closed_work h.tidy hw).bind (fun _ => (does_abortWork h.tidy).bind (fun _ => ?_))
    exact (does_clearWork (v := v)).post (fun _ _ hs => ⟨hs, h.tidy.idled, h.fair.idled⟩)

end

end Owner
end Gbasic
