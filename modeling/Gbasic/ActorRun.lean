import Gbasic.ActorWorld
/-!
# ActorRun — what holds in every state of a run (src/actor.c)

Every step keeps the streams' account (`World.step_kept`), a queue that is empty only over buffers with no whole frame
in them (`World.step_calm`), and, of every connection written by `channel_send_fds`, that its bytes are the frames it
sent and at most one begun, to where a writer's death lost the rest (`World.step_spelled`).
-/
namespace Gbasic
namespace Actor

open Framing
open World (step)
open List (append_nil mem_append mem_map)
open Function (update update_self update_of_ne)

variable {w : World} {h : Host} {k : Nat} {x : History}

/-! ## The account -/

def World.written (w : World) (k : Nat) : Bytes := (w.history k).written

theorem written_update (f : Nat → History) (k : Nat) (x : History) :
    (fun j => (update f k x j).written) = update (fun j => (f j).written) k x.written := by
  funext j
  by_cases hj : j = k
  · subst hj
    rw [update_self, update_self]
  · rw [update_of_ne hj, update_of_ne hj]

def World.Accounted (w : World) : Prop := Kept w.written w.count w.handed w.host

theorem World.Accounted.setSocket (hk : w.Accounted) (k : Nat) (sock : Socket)
    (hs : sock.stream = (w.host.net k).stream) (hclosed : (w.host.net k).closed = true → sock.closed = true) :
    (w.setSocket k sock).Accounted := by
  have h := Kept.writes hk k [] sock (.inr rfl) (by rw [hs, append_nil]) hclosed
  rw [append_nil, Function.update_eq_self] at h
  exact h

theorem World.Accounted.write (hk : w.Accounted) (hw : w.Writable k) (out : Bytes) (x : History)
    (hx : x.written = w.written k ++ out) : ((w.write k out).setHistory k x).Accounted := by
  have h := Kept.writes hk k out { w.host.net k with flight := (w.host.net k).flight ++ out } (.inl ⟨hw.1, hw.2.1⟩)
    (by simp only [Socket.stream, List.append_assoc]) id
  show Kept (fun j => (update w.history k x j).written) _ _ _
  rw [written_update, hx]
  exact h

theorem World.Accounted.dies (hk : w.Accounted) (hin : k ∈ w.host.present) (kept : Nat) : (w.die k kept).Accounted := by
  have h := Kept.dies hk hin kept
  show Kept (fun j => (update w.history k _ j).written) _ _ _
  rw [written_update]
  exact h

theorem Socket.stream_arrive (s : Socket) (more : Nat) : (s.arrive more).stream = s.stream := by
  rcases s with ⟨flight, arrived, closed⟩
  cases flight with
  | nil => rfl
  | cons b bs =>
    simp only [Socket.arrive, Socket.stream, arrivedBytes_append, arrivedBytes, append_nil, List.append_assoc,
      List.cons_append, List.take_append_drop]

theorem Socket.closed_arrive (s : Socket) (more : Nat) : (s.arrive more).closed = s.closed := by
  rcases s with ⟨flight, arrived, closed⟩
  cases flight <;> rfl

/-- **Every step keeps the account.** -/
theorem World.step_kept (w : World) (hk : w.Accounted) (a : Act) : (w.step a).Accounted := by
  cases a with
  | connect =>
    have h := Kept.connects hk
    show Kept (fun j => (update w.history w.count _ j).written) _ _ _
    rw [written_update]
    exact h
  | send slots writeFd bytes fds hangUp answers =>
    rw [step]
    rcases sendTarget slots writeFd with _ | k
    · exact hk
    · dsimp only
      by_cases hw : w.Writable k
      · rw [if_pos hw]
        exact hk.write hw _ _ rfl
      · rw [if_neg hw]
        exact hk
  | scrawl k bytes =>
    rw [step]
    by_cases hw : w.Writable k
    · rw [if_pos hw]
      exact hk.write hw bytes _ rfl
    · rw [if_neg hw]
      exact hk
  | close k =>
    rw [step]
    by_cases hlt : k < w.count
    · rw [if_pos hlt]
      exact hk.setSocket k _ rfl fun _ => rfl
    · rw [if_neg hlt]
      exact hk
  | die k kept =>
    rw [step]
    split_ifs with hd
    · exact hk.dies hd.2 kept
    · exact hk
  | arrive k more =>
    exact hk.setSocket k _ (Socket.stream_arrive _ more) fun hc => (Socket.closed_arrive _ more).trans hc
  | lull k =>
    refine hk.setSocket k _ ?_ id
    simp only [Socket.stream, arrivedBytes_append, arrivedBytes, append_nil]
  | service => exact Kept.services hk
  | pollReady revents =>
    show Kept _ _ _ (mailboxPollReady w.host revents).1
    rw [mailboxPollReady]
    dsimp only
    split_ifs
    · exact Kept.services hk
    · exact hk
  | recv =>
    rw [step, channelRecvFds]
    have hserv := Kept.services hk
    split_ifs
    · exact hk
    · dsimp only
      rcases hq : (inboxService w.host).inbox.queue with _ | ⟨⟨s, f⟩, queue⟩
      · exact hserv
      · exact (hserv.pops hq).services

/-! ## A wait finds nothing that was read -/

def Quiet (c : WinConn) : Prop := connTakeFrame c.buf = .short

theorem quiet_of_outcome {i : Nat} {c : WinConn} : (visited h i (connService (h.net c.s) c)).inbox.queue ≠ [] ∨
      ((connService (h.net c.s) c).gone = false → Quiet (connService (h.net c.s) c).conn) := by
  obtain ⟨-, -, hout⟩ := connService_outcome (h.net c.s) c
  rw [visited_queue]
  cases hout with
  | took f pushed | corrupt pushed =>
    left
    simp [pushed]
  | ended pushed gone front closed =>
    right
    intro hgone
    rw [hgone] at gone
    cases gone
  | blocked pushed gone same quiet less => exact .inr fun _ => quiet

theorem serviceLoop_quiet {p q : List WinConn} (hc : h.inbox.conns = p ++ q) :
    (serviceLoop h.inbox.conns.length p.length h).inbox.queue ≠ [] ∨
      ∀ c ∈ (serviceLoop h.inbox.conns.length p.length h).inbox.conns, Quiet c := by
  refine serviceLoop_all (I := fun _ => True) (P := fun _ c => Quiet c) (fun _ hq => hq) ?_ trivial hc
  intro h p q c _ hc
  refine ⟨trivial, fun hq => ?_, quiet_of_outcome.imp_right fun hquiet => ⟨fun _ _ hd => hd, hquiet⟩⟩
  rw [visited_queue]
  exact fun hnil => hq (List.append_eq_nil_iff.1 hnil).1

/-- The inbox between two calls. -/
structure Calm (h : Host) : Prop where
  isOpen : h.inbox.isOpen = true
  started : h.inbox.queue ≠ [] → h.inbox.startupOnly = false
  quiet : h.inbox.queue = [] → ∀ c ∈ h.inbox.conns, Quiet c

theorem quiet_accepted (k : Nat) : Quiet (accepted k) := rfl

theorem inboxService_isOpen (h : Host) : (inboxService h).inbox.isOpen = h.inbox.isOpen :=
  inboxService_keeps (I := fun h' => h'.inbox.isOpen = h.inbox.isOpen) (fun _ hi => hi)
    (fun _ _ _ _ hi _ => visited_isOpen.trans hi) h rfl

theorem inboxService_started (h : Host) (hs : h.inbox.queue ≠ [] → h.inbox.startupOnly = false) :
    (inboxService h).inbox.queue ≠ [] → (inboxService h).inbox.startupOnly = false := by
  refine inboxService_keeps (I := fun h' => h'.inbox.queue ≠ [] → h'.inbox.startupOnly = false) (fun _ hi => hi) ?_ h hs
  intro h' p q c hi hc hne
  rw [visited_startupOnly]
  rw [visited_queue] at hne
  rcases hp : (connService (h'.net c.s) c).pushed with _ | f
  · rw [hp] at hne
    rw [hi (by simpa using hne)]
    rfl
  · exact Bool.and_false _

/-- **A service leaves the inbox calm** when its buffers were quiet, or when it goes round them all. -/
theorem inboxService_calm (h : Host) (ho : h.inbox.isOpen = true)
    (hs : h.inbox.queue ≠ [] → h.inbox.startupOnly = false)
    (hq : h.inbox.startupOnly = false ∨ ∀ c ∈ h.inbox.conns, Quiet c) : Calm (inboxService h) := by
  refine ⟨(inboxService_isOpen h).trans ho, inboxService_started h hs, ?_⟩
  have hq' : (inboxAcceptAll h).inbox.startupOnly = false ∨ ∀ c ∈ (inboxAcceptAll h).inbox.conns, Quiet c := by
    refine hq.imp id fun hall c hc => ?_
    rcases mem_append.1 hc with hc | hc
    · exact hall c hc
    · obtain ⟨k, -, rfl⟩ := mem_map.1 hc
      exact quiet_accepted k
  have hserv := inboxService_service ho
  generalize inboxService h = h' at hserv ⊢
  generalize inboxAcceptAll h = a at hserv hq'
  intro hempty
  cases hserv with
  | queued queue => exact absurd hempty queue
  | none reading =>
    rcases hq' with hfalse | hall
    · rw [Inbox.reading, hfalse] at reading
      intro c hc
      rw [show h'.inbox.conns = [] from reading] at hc
      cases hc
    · exact hall
  | startup p q c queue only conns index =>
    rcases hq' with hfalse | hall
    · rw [only] at hfalse
      cases hfalse
    rcases quiet_of_outcome (h := a) (i := p.length) (c := c) with hne | hquiet
    · exact absurd hempty hne
    intro d hd
    rw [conns] at hall
    rw [visited_conns conns] at hd
    rcases hg : (connService (a.net c.s) c).gone with _ | _
    · rw [hg, if_neg (by simp)] at hd
      rcases mem_append.1 hd with hd | hd
      · exact hall d (List.mem_append_left _ hd)
      rcases List.mem_cons.1 hd with rfl | hd
      · exact hquiet hg
      · exact hall d (List.mem_append_right _ (List.mem_cons_of_mem _ hd))
    · rw [hg, if_pos rfl] at hd
      rcases mem_append.1 hd with hd | hd
      · exact hall d (List.mem_append_left _ hd)
      · exact hall d (List.mem_append_right _ (List.mem_cons_of_mem _ hd))
  | round p q queue only conns => exact (serviceLoop_quiet conns).resolve_left (not_not.2 hempty)

theorem Calm.services (hc : Calm h) : Calm (inboxService h) := by
  refine inboxService_calm h hc.isOpen hc.started ?_
  by_cases hq : h.inbox.queue = []
  · exact .inr (hc.quiet hq)
  · exact .inl (hc.started hq)

theorem Calm.receives (hc : Calm h) (readFd : Int) : Calm (channelRecvFds h readFd).1 := by
  rw [channelRecvFds]
  have hserv := hc.services
  split_ifs
  · exact hc
  · dsimp only
    rcases hq : (inboxService h).inbox.queue with _ | ⟨⟨s, f⟩, queue⟩
    · exact hserv
    · have hstart := hserv.started (by rw [hq]; simp)
      exact inboxService_calm _ hserv.isOpen (fun _ => hstart) (.inl hstart)

theorem World.step_calm (w : World) (hc : Calm w.host) (a : Act) : Calm (w.step a).host := by
  have hsame : ∀ net backlog, Calm { w.host with net := net, backlog := backlog } :=
    fun net backlog => ⟨hc.isOpen, hc.started, hc.quiet⟩
  cases a with
  | connect => exact hsame _ _
  | send slots writeFd bytes fds hangUp answers =>
    rw [step]
    rcases sendTarget slots writeFd with _ | k
    · exact hc
    · dsimp only
      split_ifs
      · exact hsame _ _
      · exact hc
  | scrawl | close | die =>
    rw [step]
    split_ifs
    · exact hsame _ _
    · exact hc
  | arrive | lull => exact hsame _ _
  | service => exact hc.services
  | pollReady revents =>
    show Calm (mailboxPollReady w.host revents).1
    rw [mailboxPollReady]
    dsimp only
    split_ifs
    · exact hc.services
    · exact hc
  | recv =>
    have h := hc.receives WIN_INBOX_ID
    rw [step]
    rcases hr : channelRecvFds w.host WIN_INBOX_ID with ⟨h', turn⟩
    rw [hr] at h
    cases turn <;> exact h

/-! ## What `channel_send_fds` leaves on a stream -/

/-- A record of a connection only `channel_send_fds` wrote to.  Where its writer died the end of the stream was lost. -/
def History.Spelled (x : History) : Prop :=
  ∃ begun lost, x.written ++ lost = x.sent.flatMap frameBytes ++ begun ∧ (∀ f ∈ x.sent, f.Fits) ∧
    connTakeFrame begun = .short ∧ (x.torn = false → begun = []) ∧ (x.died = false → lost = [])

theorem spelled_items (h : x.Spelled) : items frames x.written <+: x.sent.map some ∧
    (x.died = false → items frames x.written = x.sent.map some) := by
  obtain ⟨begun, lost, hw, hfits, hshort, -, hlost⟩ := h
  have hall : Holds frames x.sent (x.sent.flatMap frameBytes) := by
    apply holds_flatMap
    intro f hf ys
    rw [frames_front]
    exact connTakeFrame_frameBytes (hfits f hf) ys
  have hitems := hall.items frames begun
  rw [items_short frames hshort, append_nil, ← hw] at hitems
  refine ⟨?_, fun hdied => ?_⟩
  · rw [← hitems]
    exact items_prefix frames _ _
  · rw [hlost hdied, append_nil] at hitems
    exact hitems

/-- On connection `k`, a send finds it hung up, or no send left a frame begun on it and the handles have paths a reader
takes. -/
def Act.Unbroken (w : World) (k : Nat) : Act → Prop
  | .send slots writeFd _ fds hangUp _ =>
    sendTarget slots writeFd = some k → hangUp = true ∨ (w.history k).torn = false ∧ Named slots fds
  | _ => True

theorem channelSendFds_hangUp (slots : Slots) (writeFd : Int) (bytes : Bytes) (fds : List Int)
    (answers : List SendAnswer) : (channelSendFds slots writeFd bytes fds true answers).out = [] ∧
      (channelSendFds slots writeFd bytes fds true answers).rc ≠ some .ok := by
  rw [channelSendFds]
  split_ifs
  · exact ⟨rfl, by simp⟩
  · rcases slotPeer slots writeFd with _ | ⟨path, _ | s⟩ <;> exact ⟨rfl, by simp [socketHungUp]⟩

theorem History.Spelled.sends (h : x.Spelled) (hdied : x.died = false) {slots : Slots} {writeFd : Int} {bytes : Bytes}
    {fds : List Int} {hangUp : Bool} {answers : List SendAnswer}
    (hu : hangUp = true ∨ x.torn = false ∧ Named slots fds) :
    (x.after (channelSendFds slots writeFd bytes fds hangUp answers)).Spelled := by
  obtain ⟨begun, lost, hw, hfits, hshort, hwhole, hlost⟩ := h
  rw [hlost hdied, append_nil] at hw
  rcases hu with rfl | ⟨htorn, hn⟩
  · obtain ⟨hout, hrc⟩ := channelSendFds_hangUp slots writeFd bytes fds answers
    refine ⟨begun, [], ?_, ?_, hshort, ?_, fun _ => rfl⟩
    · simp only [History.after, hout, hrc, if_false, append_nil]
      exact hw
    · simp only [History.after, hrc, if_false]
      exact hfits
    · simp only [History.after, hout, List.isEmpty_nil, Bool.not_true, Bool.and_false, Bool.or_false]
      exact hwhole
  · have hnil := hwhole htorn
    subst hnil
    rw [append_nil] at hw
    rcases channelSendFds_out slots writeFd bytes fds hangUp answers hn with
      ⟨hrc, hf, hout⟩ | ⟨hrc, hpart⟩
    · refine ⟨[], [], ?_, ?_, rfl, fun _ => rfl, fun _ => rfl⟩
      · simp only [History.after, hrc, if_true, hout, hw, List.flatMap_append, List.flatMap_cons, List.flatMap_nil,
          append_nil]
      · simp only [History.after, hrc, if_true]
        intro f hfm
        rcases mem_append.1 hfm with hfm | hfm
        · exact hfits f hfm
        · rw [List.mem_singleton] at hfm
          exact hfm ▸ hf
    · refine ⟨_, [], ?_, ?_, hpart, ?_, fun _ => rfl⟩
      · simp only [History.after, hrc, if_false, hw, append_nil]
      · simp only [History.after, hrc, if_false]
        exact hfits
      · intro ht
        simp only [History.after, htorn, Bool.false_or, Bool.and_eq_false_iff, decide_eq_false_iff_not,
          Bool.not_eq_false'] at ht
        rcases ht with ht | ht
        · exact absurd hrc ht
        · exact List.isEmpty_iff.1 ht

theorem History.Spelled.dies (h : x.Spelled) (n : Nat) :
    History.Spelled { x with written := x.written.take n, died := true } := by
  obtain ⟨begun, lost, hw, hfits, hshort, hwhole, -⟩ := h
  refine ⟨begun, x.written.drop n ++ lost, ?_, hfits, hshort, hwhole, fun hd => by cases hd⟩
  rw [← List.append_assoc, List.take_append_drop]
  exact hw

def World.SpelledAt (w : World) (k : Nat) : Prop := (w.history k).foreign = false → (w.history k).Spelled

theorem spelled_fresh : History.Spelled ⟨[], [], false, false, false⟩ :=
  ⟨[], [], rfl, fun f hf => (by cases hf), rfl, fun _ => rfl, fun _ => rfl⟩

theorem World.step_spelled (w : World) (hs : w.SpelledAt k) {a : Act} (hu : a.Unbroken w k) :
    (w.step a).SpelledAt k := by
  have hset : ∀ (w' : World) (j : Nat) (x : History), w'.history = w.history →
      (j = k → x.foreign = false → x.Spelled) → (w'.setHistory j x).SpelledAt k := by
    intro w' j x hw' hx hf
    by_cases hjk : k = j
    · subst hjk
      simp only [World.setHistory, update_self] at hf ⊢
      exact hx rfl hf
    · simp only [World.setHistory, update_of_ne hjk, hw'] at hf ⊢
      exact hs hf
  cases a with
  | connect => exact hset w w.count _ rfl fun _ _ => spelled_fresh
  | send slots writeFd bytes fds hangUp answers =>
    rw [step]
    rcases htarget : sendTarget slots writeFd with _ | j
    · exact hs
    · dsimp only
      split_ifs with hw
      · refine hset _ j _ rfl ?_
        rintro rfl hforeign
        exact (hs hforeign).sends hw.2.2 (hu htarget)
      · exact hs
  | scrawl j bytes =>
    rw [step]
    split_ifs
    · exact hset _ j _ rfl fun _ hforeign => by cases hforeign
    · exact hs
  | close j =>
    rw [step]
    split_ifs <;> exact hs
  | die j kept =>
    rw [step]
    split_ifs
    · refine hset _ j _ rfl ?_
      rintro rfl hforeign
      exact (hs hforeign).dies _
    · exact hs
  | arrive j more => exact hs
  | lull j => exact hs
  | service => exact hs
  | pollReady revents => exact hs
  | recv =>
    rw [step]
    rcases channelRecvFds w.host WIN_INBOX_ID with ⟨h', turn⟩
    cases turn <;> exact hs

/-! ## Runs -/

/-- In every state of the run the step that is next is unbroken on connection `k`. -/
def Unbroken (k : Nat) : World → List Act → Prop
  | _, [] => True
  | w, a :: acts => a.Unbroken w k ∧ Unbroken k (w.step a) acts

theorem World.run_kept : ∀ (acts : List Act) (w : World), w.Accounted → (w.run acts).Accounted
  | [], _, hk => hk
  | a :: acts, w, hk => World.run_kept acts (w.step a) (w.step_kept hk a)

theorem World.run_calm : ∀ (acts : List Act) (w : World), Calm w.host → Calm (w.run acts).host
  | [], _, hc => hc
  | a :: acts, w, hc => World.run_calm acts (w.step a) (w.step_calm hc a)

theorem World.run_spelled {k : Nat} : ∀ (acts : List Act) (w : World), w.SpelledAt k → Unbroken k w acts →
    (w.run acts).SpelledAt k
  | [], _, hs, _ => hs
  | a :: acts, w, hs, hu => World.run_spelled acts (w.step a) (w.step_spelled hs hu.1) hu.2

/-! ## Where runs begin -/

/-- An inbox just opened: the root's, or a spawned child's, which has its startup frame to wait for. -/
inductive Opened : World → Prop where
  | child (waiting : Nat) : Opened (mailboxOpenAt waiting)
  | root (waiting : Nat) : Opened (mailboxOpen waiting)

theorem conns_open (waiting : Nat) : ((List.range waiting).map accepted).map WinConn.s = List.range waiting := by
  rw [List.map_map]
  exact List.map_id' _

theorem kept_open (waiting : Nat) (h : Host) (hb : h.backlog = [])
    (hc : h.inbox.conns = (List.range waiting).map accepted)
    (hq : h.inbox.queue = []) (hn : h.net = fun _ => ⟨[], [], false⟩) : Kept (fun _ => []) waiting [] h := by
  have hp : h.present = List.range waiting := by
    rw [Host.present, hb, hc, conns_open, List.nil_append]
  refine ⟨?_, ?_, ?_, ?_, ?_, ?_⟩
  · rw [hp]
    exact List.nodup_range
  · rw [hp]
    exact fun k hk => List.mem_range.1 hk
  · intro k hk
    rw [hb] at hk
    cases hk
  · intro c hcm
    rw [hc] at hcm
    obtain ⟨k, -, rfl⟩ := mem_map.1 hcm
    rw [hq, hn]
    exact reads_start frames []
  · intro k hlt hk
    rw [hp] at hk
    exact absurd (List.mem_range.2 hlt) hk
  · intro k _
    rw [hq]
    exact ⟨rfl, rfl⟩

theorem Opened.accounted (h : Opened w) : w.Accounted := by
  cases h with
  | child waiting | root waiting => exact kept_open waiting _ rfl rfl rfl rfl

theorem Opened.calm (h : Opened w) : Calm w.host := by
  have hquiet : ∀ waiting, ∀ c ∈ (List.range waiting).map accepted, Quiet c := by
    intro waiting c hc
    obtain ⟨k, -, rfl⟩ := mem_map.1 hc
    exact quiet_accepted k
  cases h with
  | child waiting | root waiting => exact ⟨rfl, fun hne => absurd rfl hne, fun _ => hquiet waiting⟩

theorem Opened.spelled (h : Opened w) (k : Nat) : w.SpelledAt k := by
  cases h <;> exact fun _ => spelled_fresh

end Actor
end Gbasic
