import Gbasic.ActorRun
/-!
# ActorDrain — what was written is handed out (src/actor.c)

The load of an inbox is what its connections still have for it and the frames it has queued.  A receive takes from the
load or leaves every connection that is read idle (`Kept.receives`), and an idle inbox stays idle (`Still.services`).
So when all that was written has arrived, more receives than the load hand all of it out, in whatever order services and
polls come between them, unless the startup frame is still to come (`inbox_loses_nothing`).
-/
namespace Gbasic
namespace Actor

open Framing
open List (map_append sum_append map_cons append_nil)

variable {w : World}

/-! ## The load -/

/-- Twice the weight of every connection, for a frame that is taken weighs less when it is queued. -/
def Host.load (h : Host) : Nat :=
  (h.inbox.conns.map (fun c => 2 * weight (h.net c.s) c)).sum
    + (h.backlog.map (fun k => 2 * weight (h.net k) (accepted k))).sum + h.inbox.queue.length

theorem load_accepts (h : Host) : (inboxAcceptAll h).load = h.load := by
  simp only [Host.load, inboxAcceptAll, map_append, sum_append, List.map_nil, List.sum_nil, List.map_map,
    Nat.add_zero]
  rfl

section Load

variable {written : Nat → Bytes} {count : Nat} {handed : List (Nat × WinFrame)} {h : Host} {p q : List WinConn}
  {c : WinConn}

theorem Kept.load_visited (hk : Kept written count handed h) (hc : h.inbox.conns = p ++ c :: q) {r : Served}
    (hs : r.conn.s = c.s) : (visited h p.length r).load + 2 * weight (h.net c.s) c
      = h.load + (if r.gone then 0 else 2 * weight r.sock r.conn) + r.pushed.toList.length := by
  have hnot := hk.others hc
  have hnet : ∀ k ∈ h.backlog ++ (p ++ q).map WinConn.s, (visited h p.length r).net k = h.net k := by
    intro k hin
    refine visited_net_of_ne ?_
    rintro rfl
    exact hnot (hs ▸ hin)
  have hsum : ∀ l : List WinConn, (∀ d ∈ l, d ∈ p ++ q) →
      l.map (fun d => 2 * weight ((visited h p.length r).net d.s) d) = l.map (fun d => 2 * weight (h.net d.s) d) := by
    intro l hl
    refine List.map_congr_left fun d hd => ?_
    rw [hnet d.s (List.mem_append_right _ (List.mem_map_of_mem (hl d hd)))]
  have hp := hsum p fun _ hd => List.mem_append_left q hd
  have hq := hsum q fun _ hd => List.mem_append_right p hd
  have hwait : h.backlog.map (fun k => 2 * weight ((visited h p.length r).net k) (accepted k))
      = h.backlog.map (fun k => 2 * weight (h.net k) (accepted k)) := by
    refine List.map_congr_left fun k hk => ?_
    rw [hnet k (List.mem_append_left _ hk)]
  have hself : (visited h p.length r).net r.conn.s = r.sock := by
    rw [visited_net, Function.update_self]
  rw [Host.load, Host.load, visited_backlog, hwait, visited_conns hc, visited_queue, hc]
  rcases r.gone with _ | _
  · simp only [Bool.false_eq_true, if_false, map_append, map_cons, sum_append, List.sum_cons,
      List.length_append, List.length_map, hp, hq, hself]
    omega
  · simp only [if_true, map_append, map_cons, sum_append, List.sum_cons, List.length_append,
      List.length_map, hp, hq]
    omega

theorem visited_idle (hc : h.inbox.conns = p ++ c :: q) (hi : Idle (h.net c.s) c) :
    visited h p.length (connService (h.net c.s) c) = { h with inbox := { h.inbox with
      conns := p ++ ⟨c.s, c.buf, grown c.cap c.buf.length⟩ :: q } } := by
  have hset : (p ++ c :: q).set p.length ⟨c.s, c.buf, grown c.cap c.buf.length⟩
      = p ++ ⟨c.s, c.buf, grown c.cap c.buf.length⟩ :: q := by
    simp
  rw [connService_idle hi]
  simp only [visited, afterService, Function.update_eq_self, hc, hset, Option.isSome_none, Bool.false_eq_true, if_false]

/-- **A turn takes from the load**, or finds its connection idle. -/
theorem Kept.turn (hk : Kept written count handed h) (hc : h.inbox.conns = p ++ c :: q) :
    (visited h p.length (connService (h.net c.s) c)).load < h.load ∨ Idle (h.net c.s) c := by
  obtain ⟨hs, -, hout⟩ := connService_outcome (h.net c.s) c
  have hload := hk.load_visited hc hs
  have hw : 2 ≤ weight (h.net c.s) c := by
    rw [weight]
    omega
  cases hout with
  | took f pushed gone front less =>
    simp only [gone, pushed, Bool.false_eq_true, if_false, Option.toList_some, List.length_singleton] at hload
    omega
  | corrupt pushed gone front =>
    simp only [gone, pushed, if_true, Option.toList_some, List.length_singleton] at hload
    omega
  | ended pushed gone front closed =>
    simp only [gone, pushed, if_true, Option.toList_none, List.length_nil] at hload
    omega
  | blocked pushed gone same quiet less =>
    simp only [gone, pushed, Bool.false_eq_true, if_false, Option.toList_none, List.length_nil] at hload
    rcases less with less | ⟨-, -, idle⟩
    · omega
    · exact .inr idle

theorem Kept.turn_load (hk : Kept written count handed h) (hc : h.inbox.conns = p ++ c :: q) :
    (visited h p.length (connService (h.net c.s) c)).load ≤ h.load := by
  rcases hk.turn hc with hless | hidle
  · exact le_of_lt hless
  · rw [visited_idle hc hidle, Host.load, Host.load, hc, map_append, map_append, map_cons, map_cons]
    exact le_refl _

theorem Kept.services_load (hk : Kept written count handed h) : (inboxService h).load ≤ h.load := by
  refine (inboxService_keeps (I := fun h' => Kept written count handed h' ∧ h'.load ≤ h.load) ?_ ?_ h
    ⟨hk, le_refl _⟩).2
  · exact fun h' hi => ⟨hi.1.accepts, (load_accepts h').le.trans hi.2⟩
  · exact fun h' p q c hi hc => ⟨hi.1.visits p q c hc, (hi.1.turn_load hc).trans hi.2⟩

/-! ## An inbox with nothing to be had -/

structure Still (h : Host) : Prop where
  backlog : h.backlog = []
  queue : h.inbox.queue = []
  idle : ∀ c ∈ h.inbox.reading, Idle (h.net c.s) c

theorem still_startup (hb : h.backlog = []) (hq : h.inbox.queue = []) (only : h.inbox.startupOnly = true)
    (hc : h.inbox.conns = p ++ c :: q) (index : p.length = h.inbox.startupIndex) (hi : Idle (h.net c.s) c) :
    Still (visited h p.length (connService (h.net c.s) c)) := by
  rw [visited_idle hc hi]
  refine ⟨hb, hq, fun d hd => ?_⟩
  rw [Inbox.reading, if_pos only] at hd
  dsimp only at hd
  rw [← index, List.getElem?_append_right (le_refl _), Nat.sub_self, List.getElem?_cons_zero, Option.toList_some,
    List.mem_singleton] at hd
  rw [hd]
  exact hi

/-- **A service queues a frame, takes from the load or finds the inbox still.** -/
theorem Kept.services_progress (hk : Kept written count handed h) (ho : h.inbox.isOpen = true) :
    (inboxService h).inbox.queue ≠ [] ∨ (inboxService h).load < h.load ∨ Still (inboxService h) := by
  have ha := hk.accepts
  have hload := load_accepts h
  have hback : (inboxAcceptAll h).backlog = [] := rfl
  have hserv := inboxService_service ho
  generalize inboxService h = h' at hserv ⊢
  generalize inboxAcceptAll h = a at ha hload hback hserv
  rw [← hload]
  by_cases hempty : h'.inbox.queue = []
  · right
    cases hserv with
    | queued queue => exact absurd hempty queue
    | none reading =>
      right
      refine ⟨hback, hempty, fun c hc => ?_⟩
      rw [reading] at hc
      cases hc
    | startup p q c queue only conns index =>
      exact (ha.turn conns).imp_right (still_startup hback queue only conns index)
    | round p q queue only conns =>
      have hall := serviceLoop_all (I := fun h' => Kept written count handed h' ∧ h'.load ≤ a.load)
        (S := fun h' => h'.inbox.queue ≠ [] ∨ h'.load < a.load) (P := fun h' c => Idle (h'.net c.s) c)
        (fun _ hq => .inl hq) ?_ ⟨ha, le_refl _⟩ conns
      · rcases hall with (hne | hless) | hidle
        · exact absurd hempty hne
        · exact .inl hless
        · right
          obtain ⟨hb, hs⟩ := serviceLoop_keeps (I := fun h' => h'.backlog = [] ∧ h'.inbox.startupOnly = false)
            (fun h' p q c hi _ => ⟨visited_backlog.trans hi.1, by rw [visited_startupOnly, hi.2]; rfl⟩)
            a.inbox.conns.length p.length a ⟨hback, only⟩
          refine ⟨hb, hempty, ?_⟩
          rw [Inbox.reading, hs]
          exact hidle
      · intro h' p q c hi hc
        have hle := hi.1.turn_load hc
        refine ⟨⟨hi.1.visits p q c hc, hle.trans hi.2⟩, ?_, ?_⟩
        · rintro (hne | hless)
          · left
            rw [visited_queue]
            exact fun hnil => hne (List.append_eq_nil_iff.1 hnil).1
          · exact .inr (lt_of_le_of_lt hle hless)
        · rcases hi.1.turn hc with hless | hidle
          · exact .inl (.inr (lt_of_lt_of_le hless hi.2))
          · right
            rw [visited_idle hc hidle, connService_idle hidle]
            exact ⟨fun _ _ hd => hd, fun _ => hidle⟩
  · exact .inl hempty

theorem Still.services (hs : Still h) (ho : h.inbox.isOpen = true) : Still (inboxService h) := by
  have ha : inboxAcceptAll h = h := by
    simp only [inboxAcceptAll, hs.backlog, List.map_nil, append_nil]
    rw [← hs.backlog]
  have hserv := inboxService_service ho
  rw [ha] at hserv
  generalize inboxService h = h' at hserv ⊢
  cases hserv with
  | queued queue => exact hs
  | none reading => exact hs
  | startup p q c queue only conns index =>
    refine still_startup hs.backlog queue only conns index (hs.idle c ?_)
    rw [Inbox.reading, if_pos only, ← index, conns]
    simp
  | round p q queue only conns =>
    refine (serviceLoop_keeps (I := fun h' => Still h' ∧ h'.inbox.startupOnly = false) ?_ _ _ h ⟨hs, only⟩).1
    intro h p q c hi hc
    obtain ⟨hs, only⟩ := hi
    have hidle : ∀ d ∈ h.inbox.conns, Idle (h.net d.s) d := by
      have hall := hs.idle
      rw [Inbox.reading, only] at hall
      exact hall
    have hi := hidle c (by rw [hc]; simp)
    rw [visited_idle hc hi]
    refine ⟨⟨hs.backlog, hs.queue, fun d hd => ?_⟩, only⟩
    rw [Inbox.reading, if_neg (by rw [only]; simp)] at hd
    rw [hc] at hidle
    rcases List.mem_append.1 hd with hd | hd
    · exact hidle d (List.mem_append_left _ hd)
    rcases List.mem_cons.1 hd with rfl | hd
    · exact hi
    · exact hidle d (List.mem_append_right _ (List.mem_cons_of_mem _ hd))

/-- **A receive takes from the load**, or leaves the inbox still. -/
theorem Kept.receives (hk : Kept written count handed h) (ho : h.inbox.isOpen = true) :
    (channelRecvFds h WIN_INBOX_ID).1.load < h.load ∨ Still (channelRecvFds h WIN_INBOX_ID).1 := by
  have hle := hk.services_load
  rw [channelRecvFds, if_neg (by simp [ho])]
  dsimp only
  rcases hq : (inboxService h).inbox.queue with _ | ⟨e, queue⟩
  · exact (hk.services_progress ho).resolve_left (not_not.2 hq)
  · left
    have hpop := (hk.services.pops hq).services_load
    have hload : (inboxService h).load
        = Host.load { inboxService h with inbox := { (inboxService h).inbox with queue := queue } } + 1 := by
      rw [Host.load, Host.load, hq]
      rfl
    rw [hload] at hle
    exact lt_of_le_of_lt hpop hle

theorem Still.receives (hs : Still h) (ho : h.inbox.isOpen = true) : Still (channelRecvFds h WIN_INBOX_ID).1 := by
  have hserv := hs.services ho
  rw [channelRecvFds, if_neg (by simp [ho])]
  dsimp only
  rw [hserv.queue]
  exact hserv

theorem inboxService_flight (h : Host) (k : Nat) : ((inboxService h).net k).flight = (h.net k).flight := by
  refine inboxService_keeps (I := fun h' => (h'.net k).flight = (h.net k).flight) (fun _ hi => hi) ?_ h rfl
  intro h' p q c hi _
  obtain ⟨hs, -, -⟩ := connService_outcome (h'.net c.s) c
  by_cases hk : k = c.s
  · subst hk
    rw [visited_net, hs, Function.update_self, connService_flight _ _ _ (le_refl _)]
    exact hi
  · have hne : k ≠ (connService (h'.net c.s) c).conn.s := by
      rw [hs]
      exact hk
    rw [visited_net_of_ne hne]
    exact hi

end Load

/-! ## Reading on -/

def Act.Reads : Act → Prop
  | .service | .pollReady _ | .recv => True
  | _ => False

def Act.isRecv : Act → Bool
  | .recv => true
  | _ => false

def receives (acts : List Act) : Nat := acts.countP Act.isRecv

theorem World.step_recv (w : World) : (w.step .recv).host = (channelRecvFds w.host WIN_INBOX_ID).1 := by
  rw [World.step]
  rcases channelRecvFds w.host WIN_INBOX_ID with ⟨h, turn⟩
  cases turn <;> rfl

theorem World.step_reads (hk : w.Accounted) (hc : Calm w.host) {a : Act} (ha : a.Reads) :
    (Still w.host → Still (w.step a).host) ∧
      ((w.step a).host.load + receives [a] ≤ w.host.load ∨ Still (w.step a).host) := by
  cases a with
  | service => exact ⟨fun hs => hs.services hc.isOpen, .inl (Kept.services_load hk)⟩
  | pollReady revents =>
    show (Still w.host → Still (mailboxPollReady w.host revents).1) ∧
      ((mailboxPollReady w.host revents).1.load ≤ w.host.load ∨ Still (mailboxPollReady w.host revents).1)
    rw [mailboxPollReady]
    dsimp only
    split_ifs
    · exact ⟨fun hs => hs.services hc.isOpen, .inl (Kept.services_load hk)⟩
    · exact ⟨id, .inl (le_refl _)⟩
  | recv =>
    rw [World.step_recv]
    exact ⟨fun hs => hs.receives hc.isOpen, Kept.receives hk hc.isOpen⟩
  | _ => cases ha

/-- **More receives than the load leave the inbox still**, whatever services and polls come between. -/
theorem World.run_still : ∀ (acts : List Act) (w : World), w.Accounted → Calm w.host → (∀ a ∈ acts, a.Reads) →
    Still w.host ∨ w.host.load < receives acts → Still (w.run acts).host
  | [], _, _, _, _, h => h.resolve_right (Nat.not_lt_zero _)
  | a :: acts, w, hk, hc, ha, h => by
    obtain ⟨hstill, hstep⟩ := World.step_reads hk hc (ha a List.mem_cons_self)
    have hcount : receives (a :: acts) = receives [a] + receives acts :=
      (List.countP_append : receives ([a] ++ acts) = _)
    refine World.run_still acts (w.step a) (w.step_kept hk a) (w.step_calm hc a)
      (fun b hb => ha b (List.mem_cons_of_mem a hb)) ?_
    rcases h with h | h
    · exact .inl (hstill h)
    rcases hstep with hless | hs
    · right
      omega
    · exact .inl hs

theorem World.run_flight : ∀ (acts : List Act) (w : World), (∀ a ∈ acts, a.Reads) → ∀ k,
    ((w.run acts).host.net k).flight = (w.host.net k).flight
  | [], _, _, _ => rfl
  | a :: acts, w, ha, k => by
    have hstep : ((w.step a).host.net k).flight = (w.host.net k).flight := by
      have hr := ha a List.mem_cons_self
      cases a with
      | service => exact inboxService_flight w.host k
      | pollReady revents =>
        show ((mailboxPollReady w.host revents).1.net k).flight = _
        rw [mailboxPollReady]
        dsimp only
        split_ifs
        · exact inboxService_flight w.host k
        · rfl
      | recv =>
        rw [World.step_recv, channelRecvFds]
        split_ifs
        · rfl
        · dsimp only
          rcases (inboxService w.host).inbox.queue with _ | ⟨e, queue⟩
          · exact inboxService_flight w.host k
          · exact (inboxService_flight _ k).trans (inboxService_flight w.host k)
      | _ => cases hr
    exact (World.run_flight acts (w.step a) (fun b hb => ha b (List.mem_cons_of_mem a hb)) k).trans hstep

/-! ## Nothing is lost -/

def World.unread (w : World) (k : Nat) : Bytes :=
  match w.host.inbox.conns.find? (fun c => decide (c.s = k)) with
  | some c => c.buf ++ (w.host.net k).stream
  | none => if k ∈ w.host.backlog then (w.host.net k).stream else []

/-- The whole frames of what was written to a connection are those handed out, the one queued and those unread, in this
order; and where none is queued no buffer holds a whole one. -/
structure World.Lossless (w : World) : Prop where
  account : ∀ k, fromConn w.handed k ++ fromConn w.host.inbox.queue k ++ items frames (w.unread k)
    = items frames (w.written k)
  pending : mailboxPending w.host = false → ∀ c ∈ w.host.inbox.conns, ∀ f rest, connTakeFrame c.buf ≠ .whole f rest

/-- All whole frames are handed out; or the startup frame is still awaited, of a connection that is open and has no
whole frame more. -/
structure World.Drained (w : World) : Prop where
  all : w.host.inbox.startupOnly = false → ∀ k, fromConn w.handed k = items frames (w.written k)
  startup : w.host.inbox.startupOnly = true → ∀ c, w.host.inbox.conns[w.host.inbox.startupIndex]? = some c →
    fromConn w.handed c.s = items frames (w.written c.s) ∧ (w.host.net c.s).closed = false

theorem World.Accounted.account (hk : w.Accounted) (k : Nat) :
    fromConn w.handed k ++ fromConn w.host.inbox.queue k ++ items frames (w.unread k) = items frames (w.written k) := by
  have hnil : items frames [] = [] := items_short frames rfl
  rw [← fromConn_append, World.unread]
  rcases hf : w.host.inbox.conns.find? (fun c => decide (c.s = k)) with _ | c
  · rw [hf]
    by_cases hb : k ∈ w.host.backlog
    · rw [if_pos hb]
      exact (hk.waiting k hb).items frames
    rw [if_neg hb, hnil, append_nil]
    by_cases hlt : k < w.count
    · refine (hk.dropped k hlt ?_).1
      intro hin
      rcases List.mem_append.1 hin with hin | hin
      · exact hb hin
      · obtain ⟨c, hc, rfl⟩ := List.mem_map.1 hin
        simpa using List.find?_eq_none.1 hf c hc
    · obtain ⟨hnone, hw⟩ := hk.unmade k (Nat.le_of_not_lt hlt)
      rw [hnone, show w.written k = [] from hw, hnil]
  · have hs : c.s = k := by simpa using List.find?_some hf
    subst hs
    rw [hf]
    exact (hk.live c (List.mem_of_find?_eq_some hf)).items frames

theorem World.Accounted.lossless (hk : w.Accounted) (hc : Calm w.host) : w.Lossless where
  account := hk.account
  pending hp c hcm f rest hw := by
    have hq : w.host.inbox.queue = [] := by simpa [mailboxPending] using hp
    rw [hc.quiet hq c hcm] at hw
    cases hw

theorem World.Accounted.drained (hk : w.Accounted) (hs : Still w.host) (hf : ∀ k, (w.host.net k).flight = []) :
    w.Drained := by
  have hread : ∀ c ∈ w.host.inbox.conns, Idle (w.host.net c.s) c →
      fromConn w.handed c.s = items frames (w.written c.s) := by
    rintro c hc ⟨hshort, harr, -⟩
    have hitems := (hk.live c hc).items frames
    rwa [hs.queue, append_nil, Socket.stream, harr, hf, arrivedBytes, append_nil, append_nil,
      items_short frames hshort, append_nil] at hitems
  refine ⟨fun only k => ?_, fun only c hc => ?_⟩
  · have hidle := hs.idle
    rw [Inbox.reading, only] at hidle
    by_cases hin : k ∈ w.host.present
    · rw [Host.present, hs.backlog, List.nil_append] at hin
      obtain ⟨c, hc, rfl⟩ := List.mem_map.1 hin
      exact hread c hc (hidle c hc)
    · have haccount : fromConn (w.handed ++ w.host.inbox.queue) k = items frames (w.written k) := by
        by_cases hlt : k < w.count
        · exact (hk.dropped k hlt hin).1
        · obtain ⟨hnone, hw⟩ := hk.unmade k (Nat.le_of_not_lt hlt)
          rw [hnone, show w.written k = [] from hw, items_short frames rfl]
      rwa [hs.queue, append_nil] at haccount
  · have hidle := hs.idle c (by rw [Inbox.reading, if_pos only, hc]; simp)
    refine ⟨hread c (List.mem_of_getElem? hc) hidle, Bool.eq_false_of_not_eq_true fun hclosed => ?_⟩
    exact hidle.2.2 ⟨hclosed, hf c.s⟩

/-- **The inbox loses nothing.**  In every run, each whole frame of what was written to a connection before it ended is
handed out once, in its order, or queued, or still unread, and no buffer holds one where none is pending; what
`channel_send_fds` wrote are the frames it answered OK for; and when all has arrived, reading on hands all of it out. -/
theorem inbox_loses_nothing {w₀ : World} (hw : Opened w₀) (acts : List Act) :
    let w := w₀.run acts
    w.Lossless ∧
      (∀ k, (w.history k).foreign = false → Unbroken k w₀ acts →
        items frames (w.written k) <+: (w.history k).sent.map some ∧
          ((w.history k).died = false → items frames (w.written k) = (w.history k).sent.map some)) ∧
      ∀ later, (∀ a ∈ later, a.Reads) → (∀ k, (w.host.net k).flight = []) → w.host.load < receives later →
        (w.run later).Drained := by
  intro w
  have hk : w.Accounted := World.run_kept acts w₀ hw.accounted
  have hc : Calm w.host := World.run_calm acts w₀ hw.calm
  refine ⟨hk.lossless hc, fun k hforeign hu => ?_, fun later hr hf hload => ?_⟩
  · exact spelled_items (World.run_spelled acts w₀ (hw.spelled k) hu hforeign)
  · refine (World.run_kept later w hk).drained (World.run_still later w hk hc hr (.inr hload)) fun k => ?_
    rw [World.run_flight later w hr k]
    exact hf k

/-- A spawned child, of whose two connections the second is written to and closed. -/
theorem inbox_loses_nothing_child :
    let w := (mailboxOpenAt 1).run
      [.connect, .send [some ⟨[0x70], some 1⟩] 1 [7] [] false [.took 100], .arrive 1 100, .lull 1, .close 1]
    w.Lossless ∧ items frames (w.written 1) = [some ⟨[7], []⟩] ∧ (w.run (List.replicate 47 .recv)).Drained := by
  obtain ⟨hl, hs, hd⟩ := inbox_loses_nothing (.child 1)
    [.connect, .send [some ⟨[0x70], some 1⟩] 1 [7] [] false [.took 100], .arrive 1 100, .lull 1, .close 1]
  refine ⟨hl, ?_, hd _ ?_ ?_ (by decide)⟩
  · have hnamed : Named [some ⟨[0x70], some 1⟩] [] := fun fd hfd => by cases hfd
    exact (hs 1 rfl ⟨trivial, fun _ => .inr ⟨rfl, hnamed⟩, trivial, trivial, trivial, trivial⟩).2 rfl
  · intro a ha
    rw [List.eq_of_mem_replicate ha]
    trivial
  · rintro (_ | _ | k) <;> rfl

end Actor
end Gbasic
