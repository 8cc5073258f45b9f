import Gbasic.ActorInbox
/-!
# ActorWorld — an inbox and those who write to it (src/actor.c)

Any number of connections, each with one writer, and the inbox that reads them.  A step is one call of the source, or
what the system does between two: a connection made, bytes arriving, a read that will find nothing.  Beside the state
stands what was written to each connection and what was handed out, which the source does not keep.
-/
namespace Gbasic
namespace Actor

open Framing
open Function (update_of_ne update_self)
open List (map_cons map_append mem_append append_assoc append_nil mem_cons mem_append_left)
open Function (update)

variable {k i : Nat} {r : Served}

/-- Of one connection: all that was written to it before it ended, the frames `channel_send_fds` answered OK for,
whether a send left a frame begun, whether something else wrote to it, and whether its writer died. -/
structure History where
  written : Bytes
  sent : List Frame
  torn : Bool
  foreign : Bool
  died : Bool

structure World where
  host : Host
  count : Nat
  history : Nat → History
  handed : List (Nat × WinFrame)

/-! ## Steps -/

inductive Act where
  | connect
  | send (slots : Slots) (writeFd : Int) (bytes : Bytes) (fds : List Int) (hangUp : Bool) (answers : List SendAnswer)
  | scrawl (k : Nat) (bytes : Bytes)
  | close (k : Nat)
  | die (k kept : Nat)
  | arrive (k more : Nat)
  | lull (k : Nat)
  | service
  | pollReady (revents : List Bool)
  | recv

def sendTarget (slots : Slots) (writeFd : Int) : Option Nat := (slotPeer slots writeFd).bind WinPeer.s

def World.setSocket (w : World) (k : Nat) (s : Socket) : World :=
  { w with host := { w.host with net := update w.host.net k s } }

def World.setHistory (w : World) (k : Nat) (x : History) : World :=
  { w with history := update w.history k x }

def World.write (w : World) (k : Nat) (out : Bytes) : World :=
  w.setSocket k { w.host.net k with flight := (w.host.net k).flight ++ out }

/-- What a send leaves on record. -/
def History.after (x : History) (r : Sending) : History :=
  { x with
    written := x.written ++ r.out
    sent := if r.rc = some .ok then x.sent ++ [r.frame] else x.sent
    torn := x.torn || (decide (r.rc ≠ some .ok) && !r.out.isEmpty) }

def World.Writable (w : World) (k : Nat) : Prop :=
  k < w.count ∧ (w.host.net k).closed = false ∧ (w.history k).died = false

instance (w : World) (k : Nat) : Decidable (w.Writable k) := inferInstanceAs (Decidable (_ ∧ _ ∧ _))

def Host.present (h : Host) : List Nat := h.backlog ++ h.inbox.conns.map WinConn.s

/-- A writer's death ends its connection: of what stands unread there so much is still to come, and the rest was not
written. -/
def World.die (w : World) (k kept : Nat) : World :=
  let stream := (w.host.net k).stream
  let x := w.history k
  (w.setSocket k ⟨stream.take kept, [], true⟩).setHistory k
    { x with written := x.written.take (x.written.length - (stream.length - kept)), died := true }

def Socket.arrive (s : Socket) (more : Nat) : Socket :=
  match s.flight with
  | [] => s
  | b :: bs => { s with flight := bs.drop more, arrived := s.arrived ++ [.piece b (bs.take more)] }

def World.step (w : World) : Act → World
  | .connect =>
    { w with
      host := { w.host with
        net := update w.host.net w.count ⟨[], [], false⟩
        backlog := w.host.backlog ++ [w.count] }
      count := w.count + 1
      history := update w.history w.count ⟨[], [], false, false, false⟩ }
  | .send slots writeFd bytes fds hangUp answers =>
    match sendTarget slots writeFd with
    | none => w
    | some k =>
      if w.Writable k then
        let r := channelSendFds slots writeFd bytes fds hangUp answers
        (w.write k r.out).setHistory k ((w.history k).after r)
      else w
  | .scrawl k bytes =>
    if w.Writable k then
      (w.write k bytes).setHistory k
        { w.history k with written := (w.history k).written ++ bytes, foreign := true }
    else w
  | .close k => if k < w.count then w.setSocket k { w.host.net k with closed := true } else w
  | .die k kept => if w.Writable k ∧ k ∈ w.host.present then w.die k kept else w
  | .arrive k more => w.setSocket k ((w.host.net k).arrive more)
  | .lull k => w.setSocket k { w.host.net k with arrived := (w.host.net k).arrived ++ [.lull] }
  | .service => { w with host := inboxService w.host }
  | .pollReady revents => { w with host := (mailboxPollReady w.host revents).1 }
  | .recv =>
    match channelRecvFds w.host WIN_INBOX_ID with
    | (h, .took s f) => { w with host := h, handed := w.handed ++ [(s, f)] }
    | (h, _) => { w with host := h }

def World.run (w : World) (acts : List Act) : World := acts.foldl World.step w

/-- `mailbox_open_at`, with so many connections accepted by it: its own and whoever else is there. -/
def mailboxOpenAt (waiting : Nat) : World where
  host := {
    net := fun _ => ⟨[], [], false⟩
    backlog := []
    inbox := ⟨true, (List.range waiting).map accepted, 0, true, waiting, []⟩ }
  count := waiting
  history := fun _ => ⟨[], [], false, false, false⟩
  handed := []

def mailboxOpen (waiting : Nat) : World :=
  let w := mailboxOpenAt waiting
  { w with host := { w.host with inbox := { w.host.inbox with startupOnly := false } } }

/-! ## What is kept of every connection -/

def fromConn (log : List (Nat × WinFrame)) (k : Nat) : List WinFrame :=
  (log.filter (fun e => decide (e.1 = k))).map Prod.snd

@[simp] theorem fromConn_append (l m : List (Nat × WinFrame)) (k : Nat) :
    fromConn (l ++ m) k = fromConn l k ++ fromConn m k := by
  simp [fromConn]

@[simp] theorem fromConn_same : ∀ (fs : List WinFrame) (k : Nat), fromConn (fs.map (fun f => (k, f))) k = fs
  | [], _ => rfl
  | f :: fs, k => by
    have ih := fromConn_same fs k
    rw [fromConn] at ih
    rw [map_cons, fromConn, List.filter_cons_of_pos (by simp), map_cons, ih]

theorem fromConn_other (fs : List WinFrame) {j : Nat} (h : j ≠ k) : fromConn (fs.map (fun f => (j, f))) k = [] := by
  simp [fromConn, h]

/-- **What is kept**: of a connection that is waiting or accepted, the frames queued so far and what stands unread are
its stream; of one that was dropped, all its frames are queued, and no more can come of it. -/
structure Kept (written : Nat → Bytes) (count : Nat) (handed : List (Nat × WinFrame)) (h : Host) : Prop where
  nodup : h.present.Nodup
  numbered : ∀ k ∈ h.present, k < count
  waiting : ∀ k ∈ h.backlog, Reads frames (fromConn (handed ++ h.inbox.queue) k) (written k) (h.net k).stream
  live : ∀ c ∈ h.inbox.conns,
    Reads frames (fromConn (handed ++ h.inbox.queue) c.s) (written c.s) (c.buf ++ (h.net c.s).stream)
  dropped : ∀ k < count, k ∉ h.present → fromConn (handed ++ h.inbox.queue) k = items frames (written k) ∧
    (none ∈ items frames (written k) ∨ (h.net k).closed = true)
  unmade : ∀ k, count ≤ k → fromConn (handed ++ h.inbox.queue) k = [] ∧ written k = []

section Kept

variable {written : Nat → Bytes} {count : Nat} {handed : List (Nat × WinFrame)} {h : Host}

theorem present_accepts (h : Host) : (inboxAcceptAll h).present.Perm h.present := by
  have hs : (h.backlog.map accepted).map WinConn.s = h.backlog := by
    rw [List.map_map]
    exact List.map_id' h.backlog
  simp only [Host.present, inboxAcceptAll, List.nil_append, map_append, hs]
  exact List.perm_append_comm

theorem Kept.accepts (hk : Kept written count handed h) : Kept written count handed (inboxAcceptAll h) := by
  have hp := present_accepts h
  refine ⟨hp.nodup_iff.2 hk.nodup, fun k hin => hk.numbered k (hp.mem_iff.1 hin), ?_, ?_, ?_, hk.unmade⟩
  · intro k hkm
    cases hkm
  · intro c hc
    rcases mem_append.1 hc with hc | hc
    · exact hk.live c hc
    · obtain ⟨k, hkb, rfl⟩ := List.mem_map.1 hc
      exact hk.waiting k hkb
  · exact fun k hlt hin => hk.dropped k hlt fun hin' => hin (hp.mem_iff.2 hin')

theorem Kept.others (hk : Kept written count handed h) {p q : List WinConn} {c : WinConn}
    (hc : h.inbox.conns = p ++ c :: q) : c.s ∉ h.backlog ++ (p ++ q).map WinConn.s := by
  have hn := hk.nodup
  rw [Host.present, hc, map_append, map_cons, ← append_assoc] at hn
  rw [map_append, ← append_assoc]
  exact (List.nodup_cons.1 (List.perm_middle.nodup_iff.1 hn)).1

theorem visited_net_of_ne (hk : k ≠ r.conn.s) : (visited h i r).net k = h.net k := by
  rw [visited_net, update_of_ne hk]

theorem fromConn_visited_of_ne (hk : k ≠ r.conn.s) :
    fromConn (handed ++ (visited h i r).inbox.queue) k = fromConn (handed ++ h.inbox.queue) k := by
  rw [visited_queue, ← append_assoc, fromConn_append, fromConn_other _ hk.symm, append_nil]

theorem fromConn_visited : fromConn (handed ++ (visited h i r).inbox.queue) r.conn.s
    = fromConn (handed ++ h.inbox.queue) r.conn.s ++ r.pushed.toList := by
  rw [visited_queue, ← append_assoc, fromConn_append, fromConn_same]

/-- A turn that stays with its connection, or drops it. -/
theorem Kept.turns (hk : Kept written count handed h) {p q : List WinConn} {c : WinConn}
    (hc : h.inbox.conns = p ++ c :: q) (hs : r.conn.s = c.s)
    (hstays : r.gone = false → Reads frames (fromConn (handed ++ h.inbox.queue) c.s ++ r.pushed.toList) (written c.s)
      (r.conn.buf ++ r.sock.stream))
    (hdrops : r.gone = true → fromConn (handed ++ h.inbox.queue) c.s ++ r.pushed.toList = items frames (written c.s) ∧
      (none ∈ items frames (written c.s) ∨ r.sock.closed = true)) :
    Kept written count handed (visited h p.length r) := by
  have hnot := hk.others hc
  have hold : ∀ k, k ∈ h.present ↔ k = c.s ∨ k ∈ h.backlog ++ (p ++ q).map WinConn.s := by
    intro k
    rw [Host.present, hc]
    simp only [map_append, map_cons, mem_append, mem_cons]
    tauto
  have hnew : ∀ k, k ∈ (visited h p.length r).present ↔
      k = c.s ∧ r.gone = false ∨ k ∈ h.backlog ++ (p ++ q).map WinConn.s := by
    intro k
    rw [Host.present, visited_backlog, visited_conns hc]
    rcases r.gone with _ | _ <;>
      simp only [Bool.false_eq_true, if_true, if_false, map_append, map_cons, mem_append, mem_cons,
        hs] <;> tauto
  have hother : ∀ k ∈ h.backlog ++ (p ++ q).map WinConn.s, k ≠ r.conn.s := by
    rintro k hin rfl
    exact hnot (hs ▸ hin)
  refine ⟨?_, ?_, ?_, ?_, ?_, ?_⟩
  · refine hk.nodup.sublist ?_
    rw [Host.present, Host.present, visited_backlog, visited_conns hc, hc]
    refine List.Sublist.append_left ?_ _
    rw [map_append, map_cons]
    split
    · rw [map_append]
      exact List.Sublist.append_left (List.sublist_cons_self _ _) _
    · rw [map_append, map_cons, hs]
  · intro k hin
    refine hk.numbered k ((hold k).2 ?_)
    rcases (hnew k).1 hin with ⟨rfl, -⟩ | hin
    · exact .inl rfl
    · exact .inr hin
  · intro k hkb
    rw [visited_backlog] at hkb
    have hne := hother k (mem_append_left _ hkb)
    rw [fromConn_visited_of_ne hne, visited_net_of_ne hne]
    exact hk.waiting k hkb
  · intro d hd
    have hstay : ∀ d ∈ p ++ q, Reads frames (fromConn (handed ++ (visited h p.length r).inbox.queue) d.s) (written d.s)
        (d.buf ++ ((visited h p.length r).net d.s).stream) := by
      intro d hd
      have hne := hother d.s (List.mem_append_right _ (List.mem_map_of_mem hd))
      rw [fromConn_visited_of_ne hne, visited_net_of_ne hne]
      refine hk.live d ?_
      rw [hc]
      rcases mem_append.1 hd with hd | hd
      · exact mem_append_left _ hd
      · exact List.mem_append_right _ (List.mem_cons_of_mem _ hd)
    rw [visited_conns hc] at hd
    rcases hg : r.gone with _ | _
    · rw [hg, if_neg (by simp)] at hd
      rcases mem_append.1 hd with hd | hd
      · exact hstay d (mem_append_left q hd)
      rcases mem_cons.1 hd with rfl | hd
      · rw [fromConn_visited, visited_net, update_self, hs]
        exact hstays hg
      · exact hstay d (List.mem_append_right p hd)
    · rw [hg, if_pos rfl] at hd
      exact hstay d hd
  · intro k hlt hin
    rw [hnew, not_or, not_and] at hin
    by_cases hkc : k = c.s
    · subst hkc
      rw [← hs, fromConn_visited, visited_net, update_self, hs]
      exact hdrops (Bool.eq_true_of_not_eq_false (hin.1 rfl))
    · rw [fromConn_visited_of_ne (hs ▸ hkc), visited_net_of_ne (hs ▸ hkc)]
      refine hk.dropped k hlt ?_
      rw [hold, not_or]
      exact ⟨hkc, hin.2⟩
  · intro k hle
    have hne : k ≠ r.conn.s := by
      have := hk.numbered c.s ((hold c.s).2 (.inl rfl))
      omega
    rw [fromConn_visited_of_ne hne]
    exact hk.unmade k hle

/-- **A turn keeps it**, whichever way the connection's servicing ends. -/
theorem Kept.visits (hk : Kept written count handed h) (p q : List WinConn) (c : WinConn)
    (hc : h.inbox.conns = p ++ c :: q) :
    Kept written count handed (visited h p.length (connService (h.net c.s) c)) := by
  have hlive := hk.live c (by rw [hc]; simp)
  have hitems := hlive.items frames
  obtain ⟨hs, hclosed, hout⟩ := connService_outcome (h.net c.s) c
  refine hk.turns hc hs (fun hgone => ?_) (fun hgone => ?_)
  · cases hout with
    | took f pushed gone front less =>
      rw [pushed]
      exact hlive.next frames front
    | blocked pushed gone same quiet less =>
      rw [pushed, same, Option.toList_none, append_nil]
      exact hlive
    | corrupt pushed gone | ended pushed gone =>
      rw [hgone] at gone
      cases gone
  · cases hout with
    | corrupt pushed gone front =>
      rw [items_corrupt frames front] at hitems
      rw [pushed, ← hitems]
      exact ⟨rfl, .inl (by simp)⟩
    | ended pushed gone front closed =>
      rw [items_short frames front] at hitems
      rw [pushed]
      exact ⟨hitems, .inr (hclosed.trans closed)⟩
    | took f pushed gone | blocked pushed gone =>
      rw [hgone] at gone
      cases gone

theorem Kept.services (hk : Kept written count handed h) : Kept written count handed (inboxService h) :=
  inboxService_keeps (fun _ hi => hi.accepts) (fun _ p q c hi hc => hi.visits p q c hc) h hk

theorem Kept.pops (hk : Kept written count handed h) {e : Nat × WinFrame} {queue : List (Nat × WinFrame)}
    (hq : h.inbox.queue = e :: queue) :
    Kept written count (handed ++ [e]) { h with inbox := { h.inbox with queue := queue } } := by
  have hlog : handed ++ [e] ++ queue = handed ++ h.inbox.queue := by
    rw [hq, append_assoc]
    rfl
  refine ⟨hk.nodup, hk.numbered, ?_, ?_, ?_, ?_⟩ <;> dsimp only <;> rw [hlog]
  · exact hk.waiting
  · exact hk.live
  · exact hk.dropped
  · exact hk.unmade

theorem Kept.changes (hk : Kept written count handed h) (k : Nat) (now : Bytes) (sock : Socket)
    (hreads : ∀ taken u, Reads frames taken (written k) (u ++ (h.net k).stream) →
      Reads frames taken now (u ++ sock.stream))
    (hdropped : k < count → k ∉ h.present → (none ∈ items frames (written k) ∨ (h.net k).closed = true) →
      items frames now = items frames (written k) ∧ (none ∈ items frames (written k) ∨ sock.closed = true))
    (hunmade : count ≤ k → now = []) :
    Kept (update written k now) count handed { h with net := update h.net k sock } := by
  refine ⟨hk.nodup, hk.numbered, ?_, ?_, ?_, ?_⟩ <;> dsimp only
  · intro j hj
    have hr := hk.waiting j hj
    by_cases hjk : j = k
    · subst hjk
      rw [update_self, update_self]
      exact hreads _ [] hr
    · rw [update_of_ne hjk, update_of_ne hjk]
      exact hr
  · intro c hc
    have hr := hk.live c hc
    by_cases hjk : c.s = k
    · subst hjk
      rw [update_self, update_self]
      exact hreads _ _ hr
    · rw [update_of_ne hjk, update_of_ne hjk]
      exact hr
  · intro j hlt hj
    obtain ⟨hall, hend⟩ := hk.dropped j hlt hj
    by_cases hjk : j = k
    · subst hjk
      obtain ⟨hsame, hend⟩ := hdropped hlt hj hend
      rw [update_self, update_self, hsame]
      exact ⟨hall, hend⟩
    · rw [update_of_ne hjk, update_of_ne hjk]
      exact ⟨hall, hend⟩
  · intro j hle
    obtain ⟨hall, hnone⟩ := hk.unmade j hle
    refine ⟨hall, ?_⟩
    by_cases hjk : j = k
    · subst hjk
      rw [update_self]
      exact hunmade hle
    · rw [update_of_ne hjk]
      exact hnone

theorem Kept.writes (hk : Kept written count handed h) (k : Nat) (out : Bytes) (sock : Socket)
    (hw : k < count ∧ (h.net k).closed = false ∨ out = []) (hs : sock.stream = (h.net k).stream ++ out)
    (hclosed : (h.net k).closed = true → sock.closed = true) :
    Kept (update written k (written k ++ out)) count handed
      { h with net := update h.net k sock } := by
  refine hk.changes k _ sock ?_ ?_ ?_
  · intro taken u hr
    rw [hs, ← append_assoc]
    exact hr.more frames out
  · rintro - - hend
    rcases hw with ⟨-, hopen⟩ | rfl
    · rcases hend with hend | hend
      · exact ⟨items_stay frames hend out, .inl hend⟩
      · rw [hopen] at hend
        cases hend
    · rw [append_nil]
      exact ⟨rfl, hend.imp_right hclosed⟩
  · intro hle
    rw [(hk.unmade k hle).2, List.nil_append]
    rcases hw with ⟨hlt, -⟩ | rfl
    · omega
    · rfl

theorem Kept.dies (hk : Kept written count handed h) (hin : k ∈ h.present) (kept : Nat) :
    Kept (update written k ((written k).take ((written k).length - ((h.net k).stream.length - kept)))) count handed
      { h with net := update h.net k ⟨(h.net k).stream.take kept, [], true⟩ } := by
  refine hk.changes k _ _ ?_ (fun _ hout => absurd hin hout) (fun hle => absurd (hk.numbered k hin) (by omega))
  intro taken u hr
  obtain ⟨bs, p, ht, hw, hp⟩ := hr
  have hcut : written k = p ++ (u ++ (h.net k).stream.take kept) ++ (h.net k).stream.drop kept := by
    rw [hw, append_assoc, append_assoc, List.take_append_drop]
  refine ⟨bs, p, ht, ?_, hp⟩
  have hlen : (written k).length
      = (p ++ (u ++ (h.net k).stream.take kept)).length + ((h.net k).stream.length - kept) := by
    rw [hcut, List.length_append, List.length_drop]
  rw [hlen, Nat.add_sub_cancel, hcut, List.take_left]
  rfl

theorem Kept.connects (hk : Kept written count handed h) :
    Kept (update written count []) (count + 1) handed
      { h with net := update h.net count ⟨[], [], false⟩, backlog := h.backlog ++ [count] } := by
  have hnew : count ∉ h.present := fun hin => Nat.lt_irrefl _ (hk.numbered _ hin)
  obtain ⟨hnone, -⟩ := hk.unmade count (le_refl _)
  have hperm : (h.backlog ++ [count] ++ h.inbox.conns.map WinConn.s).Perm (count :: h.present) := by
    rw [append_assoc]
    exact List.perm_middle
  have hold : ∀ k ∈ h.present, k ≠ count := fun k hin heq => hnew (heq ▸ hin)
  refine ⟨?_, ?_, ?_, ?_, ?_, ?_⟩
  · exact hperm.nodup_iff.2 (List.nodup_cons.2 ⟨hnew, hk.nodup⟩)
  · intro k hin
    rcases mem_cons.1 (hperm.mem_iff.1 hin) with rfl | hin
    · exact Nat.lt_succ_self _
    · exact Nat.lt_succ_of_lt (hk.numbered k hin)
  · intro k hin
    dsimp only at hin ⊢
    rcases mem_append.1 hin with hin | hin
    · have hne := hold k (mem_append_left _ hin)
      rw [update_of_ne hne, update_of_ne hne]
      exact hk.waiting k hin
    · rw [List.mem_singleton] at hin
      subst hin
      rw [update_self, update_self, hnone]
      exact reads_start frames []
  · intro c hc
    have hne := hold c.s (List.mem_append_right _ (List.mem_map_of_mem hc))
    dsimp only
    rw [update_of_ne hne, update_of_ne hne]
    exact hk.live c hc
  · intro k hlt hin
    have hout : k ≠ count ∧ k ∉ h.present := by
      rw [← not_or, ← mem_cons]
      exact fun hmem => hin (hperm.mem_iff.2 hmem)
    dsimp only
    rw [update_of_ne hout.1, update_of_ne hout.1]
    exact hk.dropped k (by omega) hout.2
  · intro k hle
    rw [update_of_ne (by omega)]
    exact hk.unmade k (by omega)

end Kept

end Actor
end Gbasic
