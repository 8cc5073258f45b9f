import Gbasic.OwnerTurns
/-!
# OwnerLive — no handle is used after its end

Between turns the connections have everything that is open, each its own (`State.Holds`); the writer slot is the
connection's whose transaction writes.  A read that works inside a transaction that times out is the one turn that
breaks it: the transaction is ended under it.
-/
namespace Gbasic
namespace Owner

open Lsm (Status)
open List (map_append map_cons mem_map mem_append mem_append_left mem_cons mem_append_right map_map mem_singleton)

variable {id : Nat}

/-! ## One connection among the others -/

def Conn.part (c : Conn) : Call.Part := ⟨c.view.txns, c.view.curs⟩

structure State.Holds (o : State) : Prop where
  ids : (o.conns.map Conn.id).Nodup
  below : ∀ c ∈ o.conns, c.id < o.accepted
  split : Call.Split (calls o.sh) o.sh.handles (o.conns.map Conn.part)
  tidy : ∀ c ∈ o.conns, c.view.Tidy
  writer : ∀ c ∈ o.conns, c.tx = .write ↔ o.sh.writer = some c.id
  there : ∀ id, o.sh.writer = some id → ∃ c ∈ o.conns, c.id = id

def restOf (sh : Shared) (pre post : List Conn) (c : Conn) : Rest :=
  ⟨Call.Part.all ((pre ++ post).map Conn.part), if c.tx = .write then none else sh.writer, c.id⟩

section
variable {o o' : State} {pre post : List Conn} {c c' : Conn}

theorem State.Holds.apart (h : o.Holds) (hl : o.conns = pre ++ c :: post) : ∀ d ∈ pre ++ post, d.id ≠ c.id := by
  have hids := h.ids
  rw [hl, map_append, map_cons] at hids
  have hnodup := (List.perm_middle.nodup_iff).1 hids
  rw [List.nodup_cons, ← map_append] at hnodup
  exact fun d hd he => hnodup.1 (mem_map.2 ⟨d, hd, he⟩)

theorem State.Holds.held (h : o.Holds) (hl : o.conns = pre ++ c :: post) :
    Held (restOf o.sh pre post c) c.view ⟨o.sh, c⟩ := by
  have hc : c ∈ o.conns := by rw [hl]; simp
  have hw := h.writer c hc
  have hslot : o.sh.writer = slot (restOf o.sh pre post c) c.view := by
    rw [slot]
    by_cases htx : c.tx = .write
    · rw [if_pos (show c.view.tx = .write from htx)]
      exact hw.1 htx
    · rw [if_neg (show ¬ c.view.tx = .write from htx), restOf, if_neg htx]
  refine ⟨⟨?_, rfl, hslot⟩, h.tidy c hc, ⟨fun htx => if_pos htx, ?_, rfl, fun hnone t ht => ?_⟩⟩
  · have hsplit := h.split
    rw [hl, map_append, map_cons] at hsplit
    have hholds := hsplit.holds
    rw [← map_append] at hholds
    exact hholds
  · rw [restOf]
    dsimp only
    split_ifs with htx
    · simp
    · exact fun he => htx (hw.2 he)
  · -- another that writes would have the slot
    obtain ⟨p, hp, htp⟩ := List.mem_flatMap.1 ht
    obtain ⟨d, hd, rfl⟩ := mem_map.1 hp
    refine reads_of_tx (fun hdw => ?_) t htp
    have hwd := (h.writer d (by rw [hl]; exact mem_middle hd)).1 hdw
    rw [restOf] at hnone
    dsimp only at hnone
    split_ifs at hnone with htx
    · have hwc := hw.1 htx
      rw [hwc] at hwd
      exact h.apart hl d hd (Option.some.inj hwd).symm
    · rw [hnone] at hwd
      cases hwd

theorem State.Holds.others (h : o.Holds) (hl : o.conns = pre ++ c :: post) :
    ∀ d ∈ pre ++ post, (d.tx = .write ↔ (restOf o.sh pre post c).writer = some d.id) := by
  intro d hd
  have hwd := h.writer d (by rw [hl]; exact mem_middle hd)
  rw [hwd, restOf]
  dsimp only
  split_ifs with htx
  · have hwc := (h.writer c (by rw [hl]; simp)).1 htx
    rw [hwc]
    constructor
    · exact fun he => absurd (Option.some.inj he).symm (h.apart hl d hd)
    · exact fun he => by cases he
  · exact Iff.rfl

theorem State.Holds.thereElse (h : o.Holds) (hl : o.conns = pre ++ c :: post)
    (hid : (restOf o.sh pre post c).writer = some id) : ∃ d ∈ pre ++ post, d.id = id := by
  rw [restOf] at hid
  dsimp only at hid
  split_ifs at hid with htx
  obtain ⟨d, hd, hdid⟩ := h.there id hid
  rw [hl] at hd
  rcases mem_append.1 hd with hd | hd
  · exact ⟨d, mem_append_left _ hd, hdid⟩
  · rcases mem_cons.1 hd with rfl | hd
    · exact absurd ((h.writer d (by rw [hl]; simp)).2 (hdid ▸ hid)) htx
    · exact ⟨d, mem_append_right _ hd, hdid⟩

theorem inside_others (h : o.Holds) (hl : o.conns = pre ++ c :: post) :
    ∀ p ∈ pre.map Conn.part ++ post.map Conn.part, Call.Inside p.txns p.cursors := by
  intro p hp
  refine h.split.inside p ?_
  rw [hl, map_append, map_cons]
  rcases mem_append.1 hp with hp | hp
  · exact mem_append_left _ hp
  · exact mem_append_right _ (List.mem_cons_of_mem _ hp)

/-- **A turn of one connection keeps what all have.** -/
theorem State.Holds.turn (h : o.Holds) {may : Conn → Bool} {m : Act Unit} (hs : o.turn id may m = some o')
    (hm : ∀ R : Rest, ∀ c : Conn, o.conns.find? (fun d => d.id = id) = some c → may c = true → Held R c.view ⟨o.sh, c⟩ →
      ∃ v', Held R v' (m.run ⟨o.sh, c⟩).2) :
    o'.Holds := by
  unfold State.turn at hs
  split at hs
  · cases hs
  rename_i c hfind
  split_ifs at hs with hmay
  cases hs
  obtain ⟨pre, post, hl, hid, hset⟩ := find_conn hfind
  obtain ⟨v', hv'⟩ := hm _ c hfind hmay (h.held hl)
  set s := (m.run ⟨o.sh, c⟩).2 with hsdef
  have hcid : s.c.id = c.id := (congrArg View.id hv'.state.view).trans hv'.fair.id
  have hview : s.c.view = v' := hv'.state.view
  have hwrites : s.o.writer = slot (restOf o.sh pre post c) v' := hv'.state.writer
  have htx : s.c.tx = v'.tx := congrArg View.tx hview
  have hconns : setConn s.c o.conns = pre ++ s.c :: post := hset s.c (hcid.trans hid)
  have hbelow : ∀ d ∈ pre ++ post, d ∈ o.conns := fun d hd => by rw [hl]; exact mem_middle hd
  refine ⟨?_, ?_, ?_, ?_, ?_, ?_⟩
  · have hids := h.ids
    rw [hl, map_append, map_cons] at hids
    show ((setConn s.c o.conns).map Conn.id).Nodup
    rw [hconns, map_append, map_cons, hcid]
    exact hids
  · intro d hd
    rw [show (setConn s.c o.conns) = _ from hconns] at hd
    rcases mem_append.1 hd with hd | hd
    · exact h.below d (hbelow d (mem_append_left _ hd))
    · rcases mem_cons.1 hd with rfl | hd
      · rw [hcid]
        exact h.below c (by rw [hl]; simp)
      · exact h.below d (hbelow d (mem_append_right _ hd))
  · show Call.Split (calls s.o) s.o.handles ((setConn s.c o.conns).map Conn.part)
    rw [hconns, map_append, map_cons]
    have hholds := hv'.state.holds
    rw [restOf] at hholds
    dsimp only at hholds
    rw [map_append] at hholds
    have hsplit := hholds.split (inside_others h hl) hv'.tidy.toWired.inside
    rw [show s.c.part = ⟨v'.txns, v'.curs⟩ by rw [Conn.part, hview]]
    exact hsplit
  · intro d hd
    rw [show (setConn s.c o.conns) = _ from hconns] at hd
    rcases mem_append.1 hd with hd | hd
    · exact h.tidy d (hbelow d (mem_append_left _ hd))
    · rcases mem_cons.1 hd with rfl | hd
      · rw [hview]
        exact hv'.tidy
      · exact h.tidy d (hbelow d (mem_append_right _ hd))
  · have hother : ∀ d ∈ pre ++ post, (d.tx = .write ↔ s.o.writer = some d.id) := by
      intro d hd
      rw [h.others hl d hd, hwrites, slot]
      split_ifs with hw
      · rw [hv'.fair.alone hw, hv'.fair.id]
        constructor
        · exact fun he => by cases he
        · exact fun he => absurd (Option.some.inj he).symm (h.apart hl d hd)
      · exact Iff.rfl
    intro d hd
    show d.tx = .write ↔ s.o.writer = some d.id
    rw [show (setConn s.c o.conns) = _ from hconns] at hd
    rcases mem_append.1 hd with hd | hd
    · exact hother d (mem_append_left _ hd)
    · rcases mem_cons.1 hd with rfl | hd
      · rw [hwrites, slot, htx, hcid]
        split_ifs with hw
        · simp [hw, hv'.fair.id, restOf]
        · have hne := hv'.fair.other
          rw [hv'.fair.id] at hne
          simp only [hw, false_iff]
          exact hne
      · exact hother d (mem_append_right _ hd)
  · intro i hi
    have hi : s.o.writer = some i := hi
    show ∃ d ∈ setConn s.c o.conns, d.id = i
    rw [hconns]
    rw [hwrites, slot] at hi
    split_ifs at hi with hw
    · refine ⟨s.c, by simp, ?_⟩
      have hvid : v'.id = c.id := hv'.fair.id
      rw [hcid, ← hvid]
      exact Option.some.inj hi
    · obtain ⟨d, hd, hdi⟩ := h.thereElse hl hi
      exact ⟨d, mem_middle hd, hdi⟩

theorem State.Holds.quietly (h : o.Holds) {may : Conn → Bool} {f : Conn → Conn} (hf : ∀ c : Conn, (f c).view = c.view)
    (hs : o.turn id may (onConn f) = some o') : o'.Holds :=
  h.turn hs (fun _ c _ _ hc => ⟨c.view, Held.quiet hf _ hc⟩)

/-! ## Every event -/

theorem State.Holds.congr (h : o.Holds) (hc : o'.conns.map Conn.view = o.conns.map Conn.view)
    (hcalls : calls o'.sh = calls o.sh) (hh : o'.sh.handles = o.sh.handles) (hw : o'.sh.writer = o.sh.writer)
    (ha : o'.accepted = o.accepted) : o'.Holds := by
  have hmem : ∀ d ∈ o'.conns, ∃ e ∈ o.conns, e.view = d.view := fun d hd => by
    have hv : d.view ∈ o'.conns.map Conn.view := List.mem_map_of_mem hd
    rw [hc] at hv
    exact mem_map.1 hv
  have hback : ∀ d ∈ o.conns, ∃ e ∈ o'.conns, e.view = d.view := fun d hd => by
    have hv : d.view ∈ o.conns.map Conn.view := List.mem_map_of_mem hd
    rw [← hc] at hv
    exact mem_map.1 hv
  have hids : o'.conns.map Conn.id = o.conns.map Conn.id := by
    have := congrArg (List.map View.id) hc
    rw [map_map, map_map] at this
    exact this
  have hparts : o'.conns.map Conn.part = o.conns.map Conn.part := by
    have := congrArg (List.map (fun v : View => Call.Part.mk v.txns v.curs)) hc
    rw [map_map, map_map] at this
    exact this
  refine ⟨?_, fun d hd => ?_, ?_, fun d hd => ?_, fun d hd => ?_, fun i hi => ?_⟩
  · rw [hids]
    exact h.ids
  · obtain ⟨e, he, hv⟩ := hmem d hd
    rw [ha, show d.id = e.id from congrArg View.id hv.symm]
    exact h.below e he
  · rw [hcalls, hh, hparts]
    exact h.split
  · obtain ⟨e, he, hv⟩ := hmem d hd
    rw [← hv]
    exact h.tidy e he
  · obtain ⟨e, he, hv⟩ := hmem d hd
    rw [hw, show d.id = e.id from congrArg View.id hv.symm, show d.tx = e.tx from congrArg View.tx hv.symm]
    exact h.writer e he
  · rw [hw] at hi
    obtain ⟨e, he, rfl⟩ := h.there i hi
    obtain ⟨d, hd, hv⟩ := hback e he
    exact ⟨d, hd, congrArg View.id hv⟩

theorem State.Holds.accept (h : o.Holds) :
    ({ o with conns := o.conns ++ [Conn.start o.accepted], accepted := o.accepted + 1 } : State).Holds := by
  have hnew : ∀ d ∈ o.conns, d.id ≠ o.accepted := fun d hd => Nat.ne_of_lt (h.below d hd)
  refine ⟨?_, fun d hd => ?_, ?_, fun d hd => ?_, fun d hd => ?_, fun i hi => ?_⟩
  · show ((o.conns ++ [Conn.start o.accepted]).map Conn.id).Nodup
    rw [map_append, List.map_singleton, List.nodup_append]
    refine ⟨h.ids, List.nodup_singleton _, fun x hx y hy => ?_⟩
    obtain ⟨d, hd, rfl⟩ := mem_map.1 hx
    rw [mem_singleton.1 hy]
    exact hnew d hd
  · rcases mem_append.1 hd with hd | hd
    · exact Nat.lt_succ_of_lt (h.below d hd)
    · rw [mem_singleton.1 hd]
      exact Nat.lt_succ_self _
  · show Call.Split _ _ ((o.conns ++ [Conn.start o.accepted]).map Conn.part)
    rw [map_append, List.map_singleton]
    have hnone : Conn.part (Conn.start o.accepted) = ⟨[], []⟩ := rfl
    refine { h.split with txns := ?_, cursors := ?_, inside := fun p hp => ?_ }
    · rw [List.flatMap_append, hnone]
      simpa using h.split.txns
    · rw [List.flatMap_append, hnone]
      simpa using h.split.cursors
    · rcases mem_append.1 hp with hp | hp
      · exact h.split.inside p hp
      · rw [mem_singleton.1 hp]
        exact fun k hk => by cases hk
  · rcases mem_append.1 hd with hd | hd
    · exact h.tidy d hd
    · rw [mem_singleton.1 hd]
      have hidle : (Conn.start o.accepted).view.work = none := rfl
      refine ⟨⟨fun _ => rfl, fun hw => absurd hw (by rw [hidle]; simp), ?_, ?_⟩, by simp [Conn.view, Conn.start]⟩
      · exact fun k hk => by cases hk
      · exact fun k hk => by cases hk
  · rcases mem_append.1 hd with hd | hd
    · exact h.writer d hd
    · rw [mem_singleton.1 hd]
      refine ⟨fun hw => absurd (show Tx.none = .write from hw) (by decide), fun hw => ?_⟩
      obtain ⟨e, he, hid⟩ := h.there _ hw
      exact absurd hid (hnew e he)
  · obtain ⟨d, hd, hid⟩ := h.there i hi
    exact ⟨d, mem_append_left _ hd, hid⟩

/-- A connection freed leaves nothing open. -/
theorem State.Holds.reaped (h : o.Holds) (hfind : o.conns.find? (fun d => d.id = id) = some c) :
    ({ o with sh := (connCleanup.run ⟨o.sh, c⟩).2.o, conns := o.conns.filter (fun d => d.id ≠ id) } : State).Holds := by
  obtain ⟨pre, post, hl, hid, -⟩ := find_conn hfind
  obtain ⟨v', hv'⟩ := does_connCleanup _ (h.held hl)
  set s := (connCleanup.run ⟨o.sh, c⟩).2 with hs
  have hwrites : s.o.writer = (restOf o.sh pre post c).writer := hv'.writer
  have happart := h.apart hl
  have hconns : o.conns.filter (fun d => d.id ≠ id) = pre ++ post := by
    rw [hl, List.filter_append, List.filter_cons_of_neg (by simp [hid]), ← List.filter_append, List.filter_eq_self]
    intro d hd
    simpa [hid] using happart d hd
  have hbelow : ∀ d ∈ pre ++ post, d ∈ o.conns := fun d hd => by rw [hl]; exact mem_middle hd
  rw [hconns]
  refine ⟨?_, fun d hd => h.below d (hbelow d hd), ?_, fun d hd => h.tidy d (hbelow d hd), fun d hd => ?_,
    fun i hi => ?_⟩
  · have hids := h.ids
    rw [hl, map_append, map_cons] at hids
    have hnodup := (List.perm_middle.nodup_iff).1 hids
    rw [List.nodup_cons, ← map_append] at hnodup
    exact hnodup.2
  · have hholds := hv'.holds
    refine ⟨hholds.lawful, hholds.begunBelow, hholds.openedBelow, hholds.txns, hholds.cursors, fun p hp => ?_⟩
    rw [map_append] at hp
    exact inside_others h hl p hp
  · show d.tx = .write ↔ s.o.writer = some d.id
    rw [hwrites]
    exact h.others hl d hd
  · have hi : s.o.writer = some i := hi
    rw [hwrites] at hi
    exact h.thereElse hl hi

theorem view_deliver (st : Status) (c : Conn) (p : Pend) : (deliver st c p).view = c.view := by
  rw [deliver]
  split_ifs <;> rfl

theorem view_delivered (st : Status) : ∀ (l : List Pend) (c : Conn), (l.foldl (deliver st) c).view = c.view
  | [], _ => rfl
  | p :: l, c => (view_delivered st l (deliver st c p)).trans (view_deliver st c p)

theorem State.Holds.synced (h : o.Holds) (st : Status) : (groupSync st o).Holds := by
  refine h.congr ?_ ?_ ?_ ?_ ?_
  · show (o.conns.map _).map Conn.view = _
    rw [map_map]
    exact List.map_congr_left (fun c _ => view_delivered st _ c)
  · rfl
  · rfl
  · rfl
  · rfl

/-- The idle limit passes on no transaction that a read of its connection still works inside. -/
def Spares (o : State) : Event → Prop
  | .timeouts id => ∀ c ∈ o.conns, c.id = id → c.work.isSome → c.workTxn = none → txnExpired o.sh c = false
  | _ => True

instance : (o : State) → (e : Event) → Decidable (Spares o e)
  | o, .timeouts id => inferInstanceAs (Decidable (∀ c ∈ o.conns, c.id = id → c.work.isSome → c.workTxn = none →
      txnExpired o.sh c = false))
  | _, .tick _ | _, .accept | _, .arrives .. | _, .malformed .. | _, .gone _ | _, .answer .. | _, .slice .. | _, .sync _
  | _, .flushed .. | _, .finish _ | _, .reap _ | _, .stop => isTrue trivial

/-- **Every event keeps what the connections have open**, where no limit passes under a read. -/
theorem State.Holds.step (h : o.Holds) {e : Event} (hp : Spares o e) (hs : Owner.step o e = some o') : o'.Holds := by
  cases e with
  | tick ms =>
    cases hs
    exact h.congr rfl rfl rfl rfl rfl
  | accept =>
    rw [Owner.step] at hs
    split_ifs at hs
    cases hs
    exact h.accept
  | arrives id r => exact h.turn hs (fun R c _ _ hc => does_enqueue _ hc)
  | malformed id short => exact h.turn hs (fun R c _ _ hc => does_malformed _ hc)
  | gone id =>
    refine h.quietly ?_ hs
    exact fun _ => rfl
  | answer id a =>
    refine h.turn hs (fun R c _ hmay hc => does_processHead ?_ _ hc)
    simp only [Conn.answers, Bool.and_eq_true, Option.isNone_iff_eq_none] at hmay
    exact hmay.2.1.1.2
  | slice id a => exact h.turn hs (fun R c _ _ hc => does_workStep _ hc)
  | sync st =>
    rw [Owner.step] at hs
    split_ifs at hs
    cases hs
    exact h.synced st
  | flushed | finish =>
    refine h.quietly ?_ hs
    exact fun _ => rfl
  | timeouts id =>
    refine h.turn hs (fun R c hfind _ hc => does_timeoutConn _ ⟨hc, fun hexp hw => ?_⟩)
    obtain ⟨pre, post, hl, hid, -⟩ := find_conn hfind
    rw [← Option.not_isNone, Bool.not_eq_true', Bool.eq_false_iff, ne_eq, Option.isNone_iff_eq_none]
    intro hnone
    have hspared := hp c (by rw [hl]; simp) hid hw hnone
    rw [show txnExpired o.sh c = true from hexp] at hspared
    cases hspared
  | reap id =>
    rw [Owner.step] at hs
    split at hs
    · cases hs
    rename_i d hfind
    split_ifs at hs
    cases hs
    exact h.reaped hfind
  | stop =>
    cases hs
    exact h.congr rfl rfl rfl rfl rfl

theorem State.Holds.start (svc : Option Service) (opt : Options) : (State.start svc opt).Holds where
  ids := List.nodup_nil
  below _ hc := by cases hc
  split := ⟨trivial, fun _ h => (by cases h), fun _ h => (by cases h), List.Perm.refl _, List.Perm.refl _,
    fun _ h => (by cases h)⟩
  tidy _ hc := by cases hc
  writer _ hc := by cases hc
  there _ h := by cases h

theorem Runs.holds {svc : Option Service} {opt : Options} (h : Runs Spares svc opt o) : o.Holds := by
  induction h with
  | start => exact .start svc opt
  | step _ e hp hs ih => exact ih.step hp hs

theorem State.Holds.held_txns (h : o.Holds) {t : Txn} (ht : t ∈ Call.txns (calls o.sh)) :
    ∃ c ∈ o.conns, t ∈ c.view.txns := by
  obtain ⟨p, hp, htp⟩ := List.mem_flatMap.1 (h.split.txns.mem_iff.1 ht)
  obtain ⟨c, hc, rfl⟩ := mem_map.1 hp
  exact ⟨c, hc, htp⟩

theorem State.Holds.held_cursors (h : o.Holds) {k : Cur} (hk : k ∈ Call.cursors (calls o.sh)) :
    ∃ c ∈ o.conns, k ∈ c.view.curs := by
  obtain ⟨p, hp, hkp⟩ := List.mem_flatMap.1 (h.split.cursors.mem_iff.1 hk)
  obtain ⟨c, hc, rfl⟩ := mem_map.1 hp
  exact ⟨c, hc, hkp⟩

theorem txn_of_write {v : View} {t : Txn} (ht : t ∈ v.txns) (hw : t.write = true) :
    v.tx = .write ∧ v.txn = some t.id := by
  have hreads : v.tx = .write := by
    by_contra hne
    rw [reads_of_tx hne t ht] at hw
    cases hw
  rw [View.txns, mem_append, mem_append] at ht
  rcases ht with ht | ht | ht
  · obtain ⟨n, hn, rfl⟩ := mem_map.1 ht
    exact ⟨hreads, by simpa using hn⟩
  · obtain ⟨n, -, rfl⟩ := mem_map.1 ht
    cases hw
  · obtain ⟨k, -, hk⟩ := List.mem_filterMap.1 ht
    obtain ⟨n, -, rfl⟩ := Option.map_eq_some_iff.1 hk
    cases hw

end

/-- **No handle is used after its end**: every call gets one begun or opened and not yet ended, no transaction ends
under a cursor, each ends once or is open to a connection that is there, and what writes is open to the one in the
slot. -/
theorem handles_used_while_open {svc : Option Service} {opt : Options} {o : State} (h : Runs Spares svc opt o) :
    Call.Lawful (calls o.sh) ∧
    (∀ t, .begins t ∈ calls o.sh →
      (calls o.sh).count (.ends t.id) = if t ∈ Call.txns (calls o.sh) then 0 else 1) ∧
    (∀ k, .opens k ∈ calls o.sh →
      (calls o.sh).count (.closes k.id) = if k ∈ Call.cursors (calls o.sh) then 0 else 1) ∧
    (∀ t ∈ Call.txns (calls o.sh), ∃ c ∈ o.conns, t ∈ c.view.txns) ∧
    (∀ k ∈ Call.cursors (calls o.sh), ∃ c ∈ o.conns, k ∈ c.view.curs) ∧
    (∀ t ∈ Call.txns (calls o.sh), t.write = true →
      (∀ u ∈ Call.txns (calls o.sh), u.write = true → t = u) ∧
      ∃ c ∈ o.conns, o.sh.writer = some c.id ∧ c.txn = some t.id) := by
  have hh := h.holds
  have hlaw := hh.split.lawful
  refine ⟨hlaw, fun t ht => ?_, fun k hk => ?_, fun t ht => hh.held_txns ht, fun k hk => hh.held_cursors hk,
    fun t ht hw => ⟨fun u hu hwu => hlaw.one_writes t ht u hu hw hwu, ?_⟩⟩
  · rw [← Call.ended_once]
    exact hlaw.kept_txns.stopped_once ⟨_, ht, rfl⟩
  · rw [← Call.closed_once]
    exact hlaw.kept_cursors.stopped_once ⟨_, hk, rfl⟩
  · obtain ⟨c, hc, htc⟩ := hh.held_txns ht
    obtain ⟨htx, htxn⟩ := txn_of_write htc hw
    exact ⟨c, hc, (hh.writer c hc).1 htx, htxn⟩

/-! ## A long read -/

def longRead : List Event :=
  [.accept, sends 0 .hello 1 false [("major", .u64 1), ("minor", .u64 0)], .answer 0 slow,
    sends 0 .begin 2 false [("mode", .text (text "read"))], .answer 0 slow,
    sends 0 .query 3 false [("statement", .text (text "SELECT * FROM t"))], .answer 0 slow]

/-- It ends before the limit passes, and its transaction with its connection. -/
theorem handles_used_while_open_long : ∃ o, Runs Spares (some fullService) noOptions o ∧
    calls o.sh = [.ends 0, .closes 1, .looks 1, .opens ⟨1, 0⟩, .uses 0, .begins ⟨0, false⟩] ∧
    Call.Lawful (calls o.sh) ∧ (calls o.sh).count (.ends 0) = 1 := by
  have hrun : ((State.start (some fullService) noOptions).runs Spares (longRead ++ [.tick 299999, .timeouts 0,
      .slice 0 (.rows ⟨[], [], []⟩ false), .gone 0, .reap 0])).map (fun o => calls o.sh) =
      some [.ends 0, .closes 1, .looks 1, .opens ⟨1, 0⟩, .uses 0, .begins ⟨0, false⟩] := by
    decide +kernel
  obtain ⟨o, ho, hcalls⟩ := Option.map_eq_some_iff.1 hrun
  have hruns := Runs.start.follow ho
  exact ⟨o, hruns, hcalls, (handles_used_while_open hruns).1, by rw [hcalls]; decide⟩

/-- The limit passes on a transaction that a read works inside: the transaction is ended, and the read goes on. -/
theorem reads_on_after_its_end : ¬ ∀ (svc : Option Service) (opt : Options) (o : State), Reached svc opt o →
    Call.Lawful (calls o.sh) := by
  intro hall
  have hrun : ((State.start (some fullService) noOptions).runs (fun _ _ => True) (longRead ++ [.tick 300000,
      .timeouts 0, .slice 0 .working])).map (fun o => calls o.sh) =
      some [.looks 1, .ends 0, .opens ⟨1, 0⟩, .uses 0, .begins ⟨0, false⟩] := by
    decide +kernel
  obtain ⟨o, ho, hcalls⟩ := Option.map_eq_some_iff.1 hrun
  have hlaw := hall _ _ o (Runs.start.follow ho)
  rw [hcalls] at hlaw
  obtain ⟨⟨-, hends⟩, -⟩ := hlaw
  exact hends.2 ⟨1, 0⟩ (by decide) rfl

end Owner
end Gbasic
