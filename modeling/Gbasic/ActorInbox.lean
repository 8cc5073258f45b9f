import Gbasic.ActorFrame
import Mathlib.Logic.Function.Basic
/-!
# ActorInbox — the Windows actor inbox (src/actor.c)

A process's one inbox: a listener, the connections it accepted, each with a buffer, and the frames queued.  Connections
are numbered as they are made.  A socket is a stream: what arrives on it arrives in the order it was written, in pieces,
a read may find nothing yet, and the end is read after all that was written.
-/
namespace Gbasic
namespace Actor

open Framing

variable {room : Nat}

/-! ## Sockets -/

inductive Arrival where
  | piece (b : Byte) (more : Bytes)
  | lull

/-- A connection's stream as it stands between the two: written and on its way, there to be read, and whether the sender
has closed its end. -/
structure Socket where
  flight : Bytes
  arrived : List Arrival
  closed : Bool

inductive Recv where
  | got (bytes : Bytes)
  | wouldBlock
  | ended

def leftOf : Bytes → List Arrival → List Arrival
  | [], more => more
  | b :: bs, more => .piece b bs :: more

def recv (s : Socket) (room : Nat) : Recv × Socket :=
  match s.arrived with
  | [] => if s.closed ∧ s.flight = [] then (.ended, s) else (.wouldBlock, s)
  | .lull :: more => (.wouldBlock, { s with arrived := more })
  | .piece b bs :: more =>
    (.got (b :: bs.take (room - 1)), { s with arrived := leftOf (bs.drop (room - 1)) more })

def arrivedBytes : List Arrival → Bytes
  | [] => []
  | .lull :: more => arrivedBytes more
  | .piece b bs :: more => b :: (bs ++ arrivedBytes more)

def Socket.stream (s : Socket) : Bytes := arrivedBytes s.arrived ++ s.flight

def reads : List Arrival → Nat
  | [] => 0
  | .lull :: more => 1 + reads more
  | .piece _ bs :: more => 2 + 2 * bs.length + reads more

@[simp] theorem arrivedBytes_leftOf (bs : Bytes) (more : List Arrival) :
    arrivedBytes (leftOf bs more) = bs ++ arrivedBytes more := by
  cases bs <;> rfl

@[simp] theorem reads_leftOf (bs : Bytes) (more : List Arrival) :
    reads (leftOf bs more) = 2 * bs.length + reads more := by
  cases bs with
  | nil =>
    rw [leftOf, List.length_nil]
    omega
  | cons b bs =>
    rw [leftOf, reads, List.length_cons]
    omega

theorem arrivedBytes_append : ∀ a b : List Arrival, arrivedBytes (a ++ b) = arrivedBytes a ++ arrivedBytes b
  | [], b => rfl
  | .lull :: a, b => by
    rw [List.cons_append, arrivedBytes, arrivedBytes, arrivedBytes_append a b]
  | .piece c cs :: a, b => by
    rw [List.cons_append, arrivedBytes, arrivedBytes, arrivedBytes_append a b, List.cons_append, List.append_assoc]

theorem recv_got {s s' : Socket} {bytes : Bytes} (h : recv s room = (.got bytes, s')) :
    s.stream = bytes ++ s'.stream ∧ s'.closed = s.closed ∧ 0 < bytes.length ∧
      reads s'.arrived + 2 * bytes.length = reads s.arrived := by
  rcases s with ⟨flight, arrived, closed⟩
  cases arrived with
  | nil =>
    rw [recv] at h
    dsimp only at h
    split_ifs at h <;> cases h
  | cons a more =>
    cases a with
    | lull => cases h
    | piece b bs =>
      cases h
      refine ⟨?_, rfl, by rw [List.length_cons]; omega, ?_⟩
      · simp only [Socket.stream, arrivedBytes, arrivedBytes_leftOf, List.cons_append, ← List.append_assoc,
          List.take_append_drop]
      · simp only [reads, reads_leftOf, List.length_cons, List.length_take, List.length_drop]
        omega

theorem recv_wouldBlock {s s' : Socket} (h : recv s room = (.wouldBlock, s')) :
    s'.stream = s.stream ∧ s'.closed = s.closed ∧
      (reads s'.arrived < reads s.arrived ∨ s' = s ∧ s.arrived = [] ∧ ¬ (s.closed = true ∧ s.flight = [])) := by
  rcases s with ⟨flight, arrived, closed⟩
  cases arrived with
  | nil =>
    rw [recv] at h
    dsimp only at h
    by_cases hend : closed = true ∧ flight = []
    · rw [if_pos hend] at h
      cases h
    · rw [if_neg hend] at h
      cases h
      exact ⟨rfl, rfl, .inr ⟨rfl, rfl, hend⟩⟩
  | cons a more =>
    cases a with
    | piece b bs => cases h
    | lull =>
      cases h
      refine ⟨rfl, rfl, .inl ?_⟩
      dsimp only
      rw [reads]
      omega

theorem recv_ended {s s' : Socket} (h : recv s room = (.ended, s')) : s' = s ∧ s.stream = [] ∧ s.closed = true := by
  rcases s with ⟨flight, arrived, closed⟩
  cases arrived with
  | nil =>
    rw [recv] at h
    dsimp only at h
    by_cases hend : closed = true ∧ flight = []
    · rw [if_pos hend] at h
      cases h
      refine ⟨rfl, ?_, hend.1⟩
      simp [Socket.stream, arrivedBytes, hend.2]
    · rw [if_neg hend] at h
      cases h
  | cons a more => cases a <;> cases h

theorem recv_flight (s : Socket) (room : Nat) : (recv s room).2.flight = s.flight := by
  rcases s with ⟨flight, arrived, closed⟩
  cases arrived with
  | nil =>
    rw [recv]
    dsimp only
    split_ifs <;> rfl
  | cons a more => cases a <;> rfl

/-! ## One connection -/

structure WinConn where
  s : Nat
  buf : Bytes
  cap : Nat

def doubled (cap len : Nat) : Nat :=
  if 0 < cap ∧ cap - len < 65536 then doubled (cap * 2) len else cap
termination_by len + 65536 - cap

def grown (cap len : Nat) : Nat :=
  if cap - len < 65536 then doubled (if cap = 0 then 65536 else cap * 2) len else cap

abbrev WinFrame := Option Frame

/-- What servicing a connection comes to: the frame it queued, and whether the connection is gone. -/
structure Served where
  sock : Socket
  conn : WinConn
  pushed : Option WinFrame
  gone : Bool

def connService (sock : Socket) (c : WinConn) : Served :=
  match connTakeFrame c.buf with
  | .whole f rest => ⟨sock, { c with buf := rest }, some (some f), false⟩
  | .corrupt => ⟨sock, c, some none, true⟩
  | .short =>
    let cap := grown c.cap c.buf.length
    match _h : recv sock (cap - c.buf.length) with
    | (.got bytes, sock') => connService sock' ⟨c.s, c.buf ++ bytes, cap⟩
    | (.wouldBlock, sock') => ⟨sock', ⟨c.s, c.buf, cap⟩, none, false⟩
    | (.ended, sock') => ⟨sock', ⟨c.s, c.buf, cap⟩, none, true⟩
termination_by reads sock.arrived
decreasing_by
  have hr := (recv_got ‹_›).2.2
  omega

theorem connService_whole (sock : Socket) {c : WinConn} {f : Frame} {rest : Bytes}
    (h : connTakeFrame c.buf = .whole f rest) :
    connService sock c = ⟨sock, { c with buf := rest }, some (some f), false⟩ := by
  rw [connService, h]

theorem connService_corrupt (sock : Socket) {c : WinConn} (h : connTakeFrame c.buf = .corrupt) :
    connService sock c = ⟨sock, c, some none, true⟩ := by
  rw [connService, h]

theorem connService_short (sock : Socket) {c : WinConn} (h : connTakeFrame c.buf = .short) :
    connService sock c =
      match recv sock (grown c.cap c.buf.length - c.buf.length) with
      | (.got bytes, sock') => connService sock' ⟨c.s, c.buf ++ bytes, grown c.cap c.buf.length⟩
      | (.wouldBlock, sock') => ⟨sock', ⟨c.s, c.buf, grown c.cap c.buf.length⟩, none, false⟩
      | (.ended, sock') => ⟨sock', ⟨c.s, c.buf, grown c.cap c.buf.length⟩, none, true⟩ := by
  rw [connService, h]
  dsimp only
  split <;> rename_i hr <;> rw [hr]

/-! ## What servicing a connection does -/

def weight (sock : Socket) (c : WinConn) : Nat := 2 + c.buf.length + reads sock.arrived

def Idle (sock : Socket) (c : WinConn) : Prop :=
  connTakeFrame c.buf = .short ∧ sock.arrived = [] ∧ ¬ (sock.closed = true ∧ sock.flight = [])

inductive Outcome (sock : Socket) (c : WinConn) (r : Served) : Prop where
  | took (f : Frame) (pushed : r.pushed = some (some f)) (gone : r.gone = false)
      (front : connTakeFrame (c.buf ++ sock.stream) = .whole f (r.conn.buf ++ r.sock.stream))
      (less : weight r.sock r.conn < weight sock c)
  | corrupt (pushed : r.pushed = some none) (gone : r.gone = true)
      (front : connTakeFrame (c.buf ++ sock.stream) = .corrupt)
  | ended (pushed : r.pushed = none) (gone : r.gone = true) (front : connTakeFrame (c.buf ++ sock.stream) = .short)
      (closed : sock.closed = true)
  | blocked (pushed : r.pushed = none) (gone : r.gone = false)
      (same : r.conn.buf ++ r.sock.stream = c.buf ++ sock.stream) (quiet : connTakeFrame r.conn.buf = .short)
      (less : weight r.sock r.conn < weight sock c ∨
        r.sock = sock ∧ r.conn.buf = c.buf ∧ Idle sock c)

theorem Outcome.before {sock sock' : Socket} {c c' : WinConn} {r : Served} (h : Outcome sock' c' r)
    (hs : c'.buf ++ sock'.stream = c.buf ++ sock.stream) (hc : sock'.closed = sock.closed)
    (hw : weight sock' c' < weight sock c) : Outcome sock c r := by
  cases h with
  | took f pushed gone front less => exact .took f pushed gone (hs ▸ front) (less.trans hw)
  | corrupt pushed gone front => exact .corrupt pushed gone (hs ▸ front)
  | ended pushed gone front closed => exact .ended pushed gone (hs ▸ front) (hc ▸ closed)
  | blocked pushed gone same quiet less =>
    refine .blocked pushed gone (same.trans hs) quiet (.inl ?_)
    rcases less with hless | ⟨hsock, hbuf, -⟩
    · exact hless.trans hw
    · refine lt_of_eq_of_lt ?_ hw
      rw [weight, weight, hsock, hbuf]

/-- **Servicing a connection** takes the frame at the front of what is unread, or finds none there, or none ever. -/
theorem connService_spec : ∀ (n : Nat) (sock : Socket) (c : WinConn), reads sock.arrived ≤ n →
    (connService sock c).conn.s = c.s ∧ (connService sock c).sock.closed = sock.closed ∧
      Outcome sock c (connService sock c) := by
  intro n
  induction n using Nat.strong_induction_on with
  | h n ih =>
    intro sock c hn
    rcases hf : connTakeFrame c.buf with ⟨f, rest⟩ | _ | _
    · rw [connService_whole sock hf]
      refine ⟨rfl, rfl, .took f rfl rfl (frames.longer hf _) ?_⟩
      have := frames.shorter hf
      dsimp only [weight]
      omega
    · rw [connService_short sock hf]
      rcases hr : recv sock (grown c.cap c.buf.length - c.buf.length) with ⟨bytes | _ | _, sock'⟩
      · obtain ⟨hstream, hclosed, hpos, hreads⟩ := recv_got hr
        dsimp only
        obtain ⟨hs, hc, hout⟩ := ih (reads sock'.arrived) (by omega) sock'
          ⟨c.s, c.buf ++ bytes, grown c.cap c.buf.length⟩ (le_refl _)
        refine ⟨hs, hc.trans hclosed, hout.before ?_ hclosed ?_⟩
        · rw [hstream, List.append_assoc]
        · dsimp only [weight]
          rw [List.length_append]
          omega
      · obtain ⟨hstream, hclosed, hless⟩ := recv_wouldBlock hr
        dsimp only
        refine ⟨rfl, hclosed, .blocked rfl rfl (by rw [hstream]) hf ?_⟩
        rcases hless with hless | ⟨rfl, harr, hend⟩
        · left
          dsimp only [weight]
          omega
        · exact .inr ⟨rfl, rfl, hf, harr, hend⟩
      · obtain ⟨rfl, hstream, hclosed⟩ := recv_ended hr
        refine ⟨rfl, rfl, .ended rfl rfl ?_ hclosed⟩
        rw [hstream, List.append_nil]
        exact hf
    · rw [connService_corrupt sock hf]
      exact ⟨rfl, rfl, .corrupt rfl rfl (frames.stays hf _)⟩

theorem connService_outcome (sock : Socket) (c : WinConn) :
    (connService sock c).conn.s = c.s ∧ (connService sock c).sock.closed = sock.closed ∧
      Outcome sock c (connService sock c) :=
  connService_spec (reads sock.arrived) sock c (le_refl _)

theorem connService_flight : ∀ (n : Nat) (sock : Socket) (c : WinConn), reads sock.arrived ≤ n →
    (connService sock c).sock.flight = sock.flight := by
  intro n
  induction n using Nat.strong_induction_on with
  | h n ih =>
    intro sock c hn
    rcases hf : connTakeFrame c.buf with ⟨f, rest⟩ | _ | _
    · rw [connService_whole sock hf]
    · rw [connService_short sock hf]
      have hflight := recv_flight sock (grown c.cap c.buf.length - c.buf.length)
      rcases hr : recv sock (grown c.cap c.buf.length - c.buf.length) with ⟨bytes | _ | _, sock'⟩
      · obtain ⟨-, -, hpos, hreads⟩ := recv_got hr
        rw [hr] at hflight
        exact (ih (reads sock'.arrived) (by omega) sock' _ (le_refl _)).trans hflight
      · rw [hr] at hflight
        exact hflight
      · rw [hr] at hflight
        exact hflight
    · rw [connService_corrupt sock hf]

theorem connService_idle {sock : Socket} {c : WinConn} (h : Idle sock c) :
    connService sock c = ⟨sock, ⟨c.s, c.buf, grown c.cap c.buf.length⟩, none, false⟩ := by
  obtain ⟨hshort, harr, hend⟩ := h
  have hr : recv sock (grown c.cap c.buf.length - c.buf.length) = (.wouldBlock, sock) := by
    rcases sock with ⟨flight, arrived, closed⟩
    rw [show arrived = [] from harr, recv]
    exact if_neg hend
  rw [connService_short sock hshort, hr]

/-! ## The inbox -/

/-- The inbox.  Beside each queued frame stands the number of the connection it came on, which the source does not
keep. -/
structure Inbox where
  isOpen : Bool
  conns : List WinConn
  nextRead : Nat
  startupOnly : Bool
  startupIndex : Nat
  queue : List (Nat × WinFrame)

/-- The inbox with the sockets it reads and the connections waiting to be accepted. -/
structure Host where
  net : Nat → Socket
  backlog : List Nat
  inbox : Inbox

def framePush (b : Inbox) (s : Nat) (f : WinFrame) : Inbox := { b with queue := b.queue ++ [(s, f)] }

def connDrop (b : Inbox) (i : Nat) : Inbox :=
  { b with
    conns := b.conns.eraseIdx i
    nextRead := if i < b.nextRead ∧ 0 < b.nextRead then b.nextRead - 1 else b.nextRead }

def accepted (s : Nat) : WinConn := ⟨s, [], 0⟩

def inboxAcceptAll (h : Host) : Host :=
  { h with backlog := [], inbox := { h.inbox with conns := h.inbox.conns ++ h.backlog.map accepted } }

/-- The connections a service reads: the one the startup frame is awaited on, and after that frame all of them. -/
def Inbox.reading (b : Inbox) : List WinConn :=
  if b.startupOnly then b.conns[b.startupIndex]?.toList else b.conns

/-- One connection serviced: what it came to written back, its frame queued, and the connection dropped or stayed
with. -/
def afterService (h : Host) (i : Nat) (r : Served) : Host :=
  let b := { h.inbox with conns := h.inbox.conns.set i r.conn }
  let b := match r.pushed with
    | some f => framePush b r.conn.s f
    | none => b
  { h with net := Function.update h.net r.conn.s r.sock, inbox := if r.gone then connDrop b i else b }

/-- Reading is over with the startup frame, and the next goes on from `i`. -/
def noted (h : Host) (i : Nat) : Host :=
  { h with inbox := { h.inbox with startupOnly := false, nextRead := i } }

def visited (h : Host) (i : Nat) (r : Served) : Host :=
  let next := if r.gone then i else i + 1
  let h := afterService h i r
  if r.pushed.isSome then noted h next else h

def serviceLoop : Nat → Nat → Host → Host
  | 0, _, h => h
  | tries + 1, i, h =>
    if h.inbox.queue = [] ∧ 0 < h.inbox.conns.length then
      let i := if h.inbox.conns.length ≤ i then 0 else i
      match h.inbox.conns[i]? with
      | none => h
      | some c =>
        let r := connService (h.net c.s) c
        serviceLoop tries (if r.gone then i else i + 1) (visited h i r)
    else h

def inboxService (h : Host) : Host :=
  if h.inbox.isOpen = false then h
  else
    let h := inboxAcceptAll h
    if h.inbox.queue ≠ [] ∨ h.inbox.conns.length = 0 then h
    else if h.inbox.startupOnly = true ∧ h.inbox.conns.length ≤ h.inbox.startupIndex then h
    else
      let tries := if h.inbox.startupOnly then 1 else h.inbox.conns.length
      let i := if h.inbox.startupOnly then h.inbox.startupIndex else h.inbox.nextRead % h.inbox.conns.length
      serviceLoop tries i h

def mailboxPending (h : Host) : Bool := !h.inbox.queue.isEmpty

/-- `mailbox_poll_ready`, by what the poll returned of each socket. -/
def mailboxPollReady (h : Host) (revents : List Bool) : Host × Bool :=
  let h := if revents.any id then inboxService h else h
  (h, mailboxPending h)

/-- What a turn of `channel_recv_fds` comes to: a wait on the sockets before the next turn, an error without a frame, or
a frame, one without bytes being an error too. -/
inductive Turn where
  | waits
  | error
  | took (s : Nat) (f : WinFrame)

def WIN_INBOX_ID : Int := 0

def channelRecvFds (h : Host) (readFd : Int) : Host × Turn :=
  if readFd ≠ WIN_INBOX_ID ∨ h.inbox.isOpen = false then (h, .error)
  else
    let h := inboxService h
    match h.inbox.queue with
    | [] => (h, .waits)
    | (s, f) :: queue => (inboxService { h with inbox := { h.inbox with queue := queue } }, .took s f)

/-! ## A turn of the loop -/

section Visit

variable {h : Host} {i : Nat} {r : Served}

@[simp] theorem visited_isOpen : (visited h i r).inbox.isOpen = h.inbox.isOpen := by
  rcases hp : r.pushed with _ | f <;> rcases hg : r.gone with _ | _ <;>
    simp [visited, afterService, noted, connDrop, framePush, hp, hg]

@[simp] theorem visited_backlog : (visited h i r).backlog = h.backlog := by
  rcases hp : r.pushed with _ | f <;> simp [visited, afterService, noted, hp]

@[simp] theorem visited_net : (visited h i r).net = Function.update h.net r.conn.s r.sock := by
  rcases hp : r.pushed with _ | f <;> simp [visited, afterService, noted, hp]

@[simp] theorem visited_queue :
    (visited h i r).inbox.queue = h.inbox.queue ++ r.pushed.toList.map (fun f => (r.conn.s, f)) := by
  rcases hp : r.pushed with _ | f <;> rcases hg : r.gone with _ | _ <;>
    simp [visited, afterService, noted, connDrop, framePush, hp, hg]

theorem visited_startupOnly : (visited h i r).inbox.startupOnly = (h.inbox.startupOnly && !r.pushed.isSome) := by
  rcases hp : r.pushed with _ | f <;> rcases hg : r.gone with _ | _ <;>
    simp [visited, afterService, noted, connDrop, framePush, hp, hg]

theorem visited_conns {p q : List WinConn} {c : WinConn} (hc : h.inbox.conns = p ++ c :: q) :
    (visited h p.length r).inbox.conns = if r.gone then p ++ q else p ++ r.conn :: q := by
  have hset : (p ++ c :: q).set p.length r.conn = p ++ r.conn :: q := by
    simp
  have herase : (p ++ r.conn :: q).eraseIdx p.length = p ++ q := by
    rw [List.eraseIdx_append_of_length_le (le_refl _), Nat.sub_self, List.eraseIdx_cons_zero]
  rcases hp : r.pushed with _ | f <;> rcases hg : r.gone with _ | _ <;>
    simp only [visited, afterService, noted, connDrop, framePush, hp, hg, hc, hset, herase] <;> rfl

theorem serviceLoop_stop (h : Host) (tries i : Nat) (hs : h.inbox.queue ≠ [] ∨ h.inbox.conns = []) :
    serviceLoop tries i h = h := by
  cases tries with
  | zero => rfl
  | succ tries =>
    rw [serviceLoop, if_neg]
    rintro ⟨hq, hc⟩
    rcases hs with hs | hs
    · exact hs hq
    · rw [hs] at hc
      exact absurd hc (Nat.lt_irrefl 0)

theorem serviceLoop_wrap (h : Host) (tries : Nat) : serviceLoop tries h.inbox.conns.length h =
    serviceLoop tries 0 h := by
  cases tries with
  | zero => rfl
  | succ tries =>
    rw [serviceLoop, serviceLoop]
    simp

theorem serviceLoop_visit (h : Host) (tries : Nat) {p q : List WinConn} {c : WinConn} (hq : h.inbox.queue = [])
    (hc : h.inbox.conns = p ++ c :: q) :
    serviceLoop (tries + 1) p.length h =
      serviceLoop tries (if (connService (h.net c.s) c).gone then p.length else p.length + 1)
        (visited h p.length (connService (h.net c.s) c)) := by
  have hlen : h.inbox.conns.length = p.length + (q.length + 1) := by
    rw [hc, List.length_append, List.length_cons]
  have hget : h.inbox.conns[p.length]? = some c := by
    rw [hc]
    simp
  rw [serviceLoop, if_pos ⟨hq, by omega⟩]
  dsimp only
  rw [if_neg (by omega), hget]

theorem split_getElem? {l : List WinConn} {c : WinConn} (hi : l[i]? = some c) :
    ∃ p q, l = p ++ c :: q ∧ p.length = i := by
  obtain ⟨hlt, hget⟩ := List.getElem?_eq_some_iff.1 hi
  refine ⟨l.take i, l.drop (i + 1), ?_, List.length_take_of_le (le_of_lt hlt)⟩
  rw [← hget, ← List.drop_eq_getElem_cons hlt, List.take_append_drop]

theorem serviceLoop_keeps {I : Host → Prop}
    (hv : ∀ (h : Host) (p q : List WinConn) (c : WinConn), I h → h.inbox.conns = p ++ c :: q →
      I (visited h p.length (connService (h.net c.s) c))) :
    ∀ (tries i : Nat) (h : Host), I h → I (serviceLoop tries i h)
  | 0, _, h, hi => hi
  | tries + 1, i, h, hi => by
    rw [serviceLoop]
    by_cases hgo : h.inbox.queue = [] ∧ 0 < h.inbox.conns.length
    · rw [if_pos hgo]
      dsimp only
      rcases hc : h.inbox.conns[if h.inbox.conns.length ≤ i then 0 else i]? with _ | c
      · exact hi
      · obtain ⟨p, q, hsplit, hlen⟩ := split_getElem? hc
        rw [← hlen]
        exact serviceLoop_keeps hv tries _ _ (hv h p q c hi hsplit)
    · rw [if_neg hgo]
      exact hi

theorem inboxService_keeps {I : Host → Prop} (ha : ∀ h, I h → I (inboxAcceptAll h))
    (hv : ∀ (h : Host) (p q : List WinConn) (c : WinConn), I h → h.inbox.conns = p ++ c :: q →
      I (visited h p.length (connService (h.net c.s) c))) (h : Host) (hi : I h) : I (inboxService h) := by
  rw [inboxService]
  dsimp only
  split_ifs
  · exact hi
  · exact ha h hi
  · exact ha h hi
  · exact serviceLoop_keeps hv _ _ _ (ha h hi)
  · exact serviceLoop_keeps hv _ _ _ (ha h hi)

theorem serviceLoop_round {I S : Host → Prop} {P : Host → WinConn → Prop}
    (hqueue : ∀ h, h.inbox.queue ≠ [] → S h)
    (hv : ∀ (h : Host) (p q : List WinConn) (c : WinConn), I h → h.inbox.conns = p ++ c :: q →
      let r := connService (h.net c.s) c
      let h' := visited h p.length r
      I h' ∧ (S h → S h') ∧
        (S h' ∨ (∀ d ∈ p ++ q, P h d → P h' d) ∧ (r.gone = false → P h' r.conn))) :
    ∀ (tries : Nat) (h : Host) (p q : List WinConn), I h → h.inbox.conns = p ++ q →
      (∀ c ∈ p.drop (tries - q.length), P h c) → (∀ c ∈ q.drop tries, P h c) →
        S (serviceLoop tries p.length h) ∨
          ∀ c ∈ (serviceLoop tries p.length h).inbox.conns, P (serviceLoop tries p.length h) c := by
  have hstop : ∀ (tries i : Nat) (h : Host), I h → S h → S (serviceLoop tries i h) := by
    intro tries i h hi hs
    refine (serviceLoop_keeps (I := fun h => I h ∧ S h) ?_ tries i h ⟨hi, hs⟩).2
    intro h p q c hi hc
    obtain ⟨hi', hs', -⟩ := hv h p q c hi.1 hc
    exact ⟨hi', hs' hi.2⟩
  intro tries
  induction tries with
  | zero =>
    intro h p q _ hc hp hq
    rw [Nat.zero_sub, List.drop_zero] at hp
    rw [List.drop_zero] at hq
    rw [serviceLoop, hc]
    right
    intro c hcm
    rcases List.mem_append.1 hcm with hcm | hcm
    · exact hp c hcm
    · exact hq c hcm
  | succ tries ih =>
    -- a turn at the connection that stands first after `p`
    have hturn : ∀ (h : Host) (p q : List WinConn) (c : WinConn), I h → h.inbox.conns = p ++ c :: q →
        (∀ d ∈ p.drop (tries - q.length), P h d) → (∀ d ∈ q.drop tries, P h d) →
          S (serviceLoop (tries + 1) p.length h) ∨
            ∀ d ∈ (serviceLoop (tries + 1) p.length h).inbox.conns, P (serviceLoop (tries + 1) p.length h) d := by
      intro h p q c hi hc hp hq
      by_cases hempty : h.inbox.queue = []
      · rw [serviceLoop_visit h tries hempty hc]
        obtain ⟨hi', -, hs | ⟨hother, hconn⟩⟩ := hv h p q c hi hc
        · exact .inl (hstop _ _ _ hi' hs)
        have hleft := fun d hd => hother d (List.mem_append_left q (List.mem_of_mem_drop hd)) (hp d hd)
        have hright := fun d hd => hother d (List.mem_append_right p (List.mem_of_mem_drop hd)) (hq d hd)
        have hconns := visited_conns (r := connService (h.net c.s) c) hc
        rcases hg : (connService (h.net c.s) c).gone with _ | _
        · rw [hg] at hconns
          rw [if_neg (by simp), show p.length + 1 = (p ++ [(connService (h.net c.s) c).conn]).length by simp]
          refine ih _ _ q hi' (by simpa using hconns) ?_ hright
          intro d hd
          rw [List.drop_append] at hd
          rcases List.mem_append.1 hd with hd | hd
          · exact hleft d hd
          · rw [List.mem_singleton.1 (List.mem_of_mem_drop hd)]
            exact hconn hg
        · rw [hg, if_pos rfl] at hconns
          rw [if_pos rfl]
          exact ih _ p q hi' hconns hleft hright
      · exact .inl (hstop _ _ _ hi (hqueue h hempty))
    intro h p q hi hc hp hq
    cases q with
    | cons c q =>
      rw [List.length_cons, Nat.add_sub_add_right] at hp
      rw [List.drop_succ_cons] at hq
      exact hturn h p q c hi hc hp hq
    | nil =>
      rw [List.append_nil] at hc
      rw [← hc, serviceLoop_wrap]
      cases p with
      | nil =>
        rw [serviceLoop_stop h _ _ (.inr hc), hc]
        right
        intro c hcm
        cases hcm
      | cons c p =>
        rw [List.length_nil, Nat.sub_zero, List.drop_succ_cons] at hp
        exact hturn h [] p c hi hc (fun d hd => by simp at hd) hp

theorem serviceLoop_all {I S : Host → Prop} {P : Host → WinConn → Prop}
    (hqueue : ∀ h, h.inbox.queue ≠ [] → S h)
    (hv : ∀ (h : Host) (p q : List WinConn) (c : WinConn), I h → h.inbox.conns = p ++ c :: q →
      let r := connService (h.net c.s) c
      let h' := visited h p.length r
      I h' ∧ (S h → S h') ∧
        (S h' ∨ (∀ d ∈ p ++ q, P h d → P h' d) ∧ (r.gone = false → P h' r.conn)))
    {h : Host} {p q : List WinConn} (hi : I h) (hc : h.inbox.conns = p ++ q) :
    S (serviceLoop h.inbox.conns.length p.length h) ∨
      ∀ c ∈ (serviceLoop h.inbox.conns.length p.length h).inbox.conns,
        P (serviceLoop h.inbox.conns.length p.length h) c := by
  have hlen : h.inbox.conns.length = p.length + q.length := by
    rw [hc, List.length_append]
  refine serviceLoop_round hqueue hv _ h p q hi hc ?_ ?_ <;> intro c hcm
  · rw [List.drop_eq_nil_of_le (by omega)] at hcm
    cases hcm
  · rw [List.drop_eq_nil_of_le (by omega)] at hcm
    cases hcm

/-- What a service comes to, from the inbox as it is once every waiting connection is accepted. -/
inductive Service (h : Host) : Host → Prop where
  | queued (queue : h.inbox.queue ≠ []) : Service h h
  | none (reading : h.inbox.reading = []) : Service h h
  | startup (p q : List WinConn) (c : WinConn) (queue : h.inbox.queue = []) (only : h.inbox.startupOnly = true)
      (conns : h.inbox.conns = p ++ c :: q) (index : p.length = h.inbox.startupIndex) :
      Service h (visited h p.length (connService (h.net c.s) c))
  | round (p q : List WinConn) (queue : h.inbox.queue = []) (only : h.inbox.startupOnly = false)
      (conns : h.inbox.conns = p ++ q) : Service h (serviceLoop h.inbox.conns.length p.length h)

theorem inboxService_service {h : Host} (ho : h.inbox.isOpen = true) :
    Service (inboxAcceptAll h) (inboxService h) := by
  rw [inboxService, if_neg (by rw [ho]; simp)]
  dsimp only
  generalize inboxAcceptAll h = a
  by_cases hq : a.inbox.queue = []
  · by_cases hc : a.inbox.conns = []
    · rw [if_pos (.inr (by rw [hc]; rfl))]
      refine .none ?_
      rw [Inbox.reading, hc]
      split <;> rfl
    have hpos := List.length_pos_iff.2 hc
    rw [if_neg (by rw [not_or]; exact ⟨not_not.2 hq, by omega⟩)]
    rcases hs : a.inbox.startupOnly with _ | _
    · rw [if_neg (by simp), if_neg (by simp), if_neg (by simp)]
      have hi := Nat.mod_lt a.inbox.nextRead hpos
      have hround := Service.round _ _ hq hs
        (List.take_append_drop (a.inbox.nextRead % a.inbox.conns.length) a.inbox.conns).symm
      rwa [List.length_take_of_le (le_of_lt hi)] at hround
    · by_cases hi : a.inbox.conns.length ≤ a.inbox.startupIndex
      · rw [if_pos ⟨rfl, hi⟩]
        refine .none ?_
        rw [Inbox.reading, if_pos hs, List.getElem?_eq_none hi]
        rfl
      · rw [if_neg (fun h => hi h.2), if_pos rfl, if_pos rfl]
        obtain ⟨p, q, hsplit, hlen⟩ := split_getElem? (List.getElem?_eq_getElem (Nat.lt_of_not_le hi))
        rw [← hlen, serviceLoop_visit a 0 hq hsplit]
        exact .startup p q _ hq hs hsplit hlen
  · rw [if_pos (.inl hq)]
    exact .queued hq

end Visit

end Actor
end Gbasic
