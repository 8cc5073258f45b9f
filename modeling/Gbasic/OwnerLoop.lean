import Gbasic.Owner
/-!
# OwnerLoop — the connections of one owner

The loop answers what can be answered, gives every read that works a slice, syncs the commits of the round, writes,
frees the connections that went, ends what was idle too long, and reads.  An owner takes these as events, in any order
and for any connection: what holds of every run of events holds of the loop's.
-/
namespace Gbasic
namespace Owner

open Lsm (Status)
open Key (Bytes)
open Gsql (statusName number)

/-! ## A connection's turn in the loop -/

def popHead : Act Unit := onConn fun c => { c with reqs := c.reqs.tail }

def Reply.isDone : Reply → Bool
  | .done .. => true
  | _ => false

def note (r : Req) (tx : Tx) : Act Unit :=
  onConn fun c => { c with
    past := ⟨r.type, c.awaiting || (c.out.getLast?.map (fun f => f.reply.isDone)).getD false, tx, c.txn⟩ :: c.past }

/-- One round of `process`: the head request answered, parked or begun. -/
def processHead (a : Answers) : Act Unit := do
  let c := (← get).c
  match c.reqs with
  | [] => pure ()
  | r :: _ =>
    match ← handleReq a r with
    | .done =>
      note r c.tx
      popHead
    | .parked | .working => pure ()

inductive SliceAnswer where
  | working
  | refused (e : GsqlError)
  | rows (body : Rows) (more : Bool)

/-- A read that was refused in a slice: its own snapshot goes, or the transaction where the engine failed. -/
def sliceRefused (e : GsqlError) : Option Nat → Act Unit
  | some t => abort t
  | none => if e.code = .storage then storageFailed e.message else pure ()

def clearWork : Act Unit := onConn fun c => { c with work := none, workTxn := none }

def workStep (a : SliceAnswer) : Act Unit := do
  let c := (← get).c
  match c.work, a with
  | none, _ => pure ()
  | some k, .working => ask (.resumed k)
  | some k, .refused e => do
    ask (.resumed k)
    ask (.closed k)
    clearWork
    sliceRefused e c.workTxn
    sendErrorAbout c.workId e
    popHead
  | some k, .rows body true => do
    ask (.resumed k)
    clearWork
    sendRows c.workId body (some k) c.workTxn
    popHead
  | some k, .rows body false => do
    ask (.resumed k)
    ask (.closed k)
    clearWork
    sendRows c.workId body none c.workTxn
    popHead

def putReq (r : Req) : Act Unit := onConn fun c => { c with reqs := c.reqs ++ [r], got := c.got ++ [r.id] }

def cancels (r : Req) (c : Conn) : Bool :=
  match c.reqs, r.u64 "request" with
  | t :: _, some target => t.id = target
  | _, _ => false

/-- `enqueue`'s CANCEL: it ends its target now where that still reads or is parked, and its own answer waits its
turn. -/
def cancelHead (r : Req) : Act Bool := do
  let c := (← get).c
  let id := (c.reqs.head?.map Req.id).getD 0
  if cancels r c && c.work.isSome then
    workEnd
    sendError id .cancelled (text "cancelled while it was still reading")
    popHead
    return true
  else if cancels r c && c.queued then
    sendError id .cancelled (text "cancelled while waiting for the writer")
    popHead
    fifoRemove
    return true
  else return false

def enqueue (r : Req) : Act Unit := do
  if r.type = .cancel then
    let hit ← cancelHead r
    putReq { r with cancelHit := hit, fields := some [] }
  else putReq { r with cancelHit := false }

/-- `read_conn`'s end of a stream that cannot be resynchronised: it says why and closes. -/
def malformed (short : Bool) : Act Unit := do
  if short then sendError 0 .protocol (text "a frame's length was under 5 bytes, which no frame can be")
  else sendError 0 .tooLarge (text "a frame was longer than the limit of " ++ number GSQL_FRAME_MAX ++ text " bytes")
  onConn fun c => { c with closing := true }

def idle (v : Nat) : Nat := if v = 0 then DEFAULT_IDLE_MS else v

def limitOf (o : Shared) (c : Conn) : Option Nat :=
  match c.tx with
  | .write => some (idle o.opt.writerIdleMs)
  | .read => some (idle o.opt.snapshotIdleMs)
  | _ => none

def txnExpired (o : Shared) (c : Conn) : Bool :=
  match limitOf o c with
  | some limit => limit ≤ o.now - c.txMs
  | none => false

def timeoutTxn : Act Unit := do
  let s ← get
  if txnExpired s.o s.c then
    txnEnd
    onConn fun c => { c with
      tx := .timedOut
      why := (text "the " ++ text (if s.c.tx = .write then "write" else "read") ++ text " transaction was idle for " ++
        number ((limitOf s.o s.c).getD 0) ++ text " ms and was rolled back" ++
        text (if s.c.tx = .write then ", so other writers could go on" else "")).take 299 }
  else pure ()

def timeoutCursors : List Cursor → Act Unit
  | [] => pure ()
  | k :: ks => do
    let o := (← get).o
    if idle o.opt.snapshotIdleMs ≤ o.now - k.lastMs then
      onConn fun c => { c with timedOut := (k.id :: c.timedOut).take TIMED_OUT_KEPT }
      cursorDrop k
      timeoutCursors ks
    else timeoutCursors ks

def timeoutConn : Act Unit := do
  timeoutTxn
  timeoutCursors (← get).c.cursors

def connCleanup : Act Unit := do
  let id := (← get).c.id
  onShared fun o => { o with group := o.group.map (fun p => if p.conn = some id then { p with conn := none } else p) }
  workEnd
  txnEnd
  let ks := (← get).c.cursors
  onConn fun c => { c with cursors := [] }
  freeAll ks
  leaveQueue
  onConn fun c => { c with reqs := [] }

/-! ## The owner -/

structure State where
  sh : Shared
  conns : List Conn
  accepted : Nat
  stopping : Bool

inductive Event where
  | tick (ms : Nat)
  | accept
  | arrives (id : Nat) (r : Req)
  | malformed (id : Nat) (short : Bool)
  | gone (id : Nat)
  | answer (id : Nat) (a : Answers)
  | slice (id : Nat) (a : SliceAnswer)
  | sync (st : Status)
  | flushed (id n : Nat)
  | finish (id : Nat)
  | timeouts (id : Nat)
  | reap (id : Nat)
  | stop

def setConn (c : Conn) : List Conn → List Conn
  | [] => []
  | d :: ds => if d.id = c.id then c :: ds else d :: setConn c ds

theorem find_conn {id : Nat} {c : Conn} : ∀ {l : List Conn}, l.find? (fun d => d.id = id) = some c →
    ∃ pre post, l = pre ++ c :: post ∧ c.id = id ∧ ∀ c', c'.id = id → setConn c' l = pre ++ c' :: post
  | [], h => by cases h
  | d :: ds, h => by
    by_cases hd : d.id = id
    · rw [List.find?_cons_of_pos (by simpa using hd)] at h
      cases h
      refine ⟨[], ds, rfl, hd, fun c' hc' => ?_⟩
      rw [setConn, if_pos (hd.trans hc'.symm)]
      rfl
    · rw [List.find?_cons_of_neg (by simpa using hd)] at h
      obtain ⟨pre, post, hl, hid, hset⟩ := find_conn h
      refine ⟨d :: pre, post, by rw [hl]; rfl, hid, fun c' hc' => ?_⟩
      rw [setConn, if_neg (fun he => hd (he.trans hc')), hset c' hc']
      rfl

theorem mem_middle {pre post : List Conn} {c d : Conn} (hd : d ∈ pre ++ post) : d ∈ pre ++ c :: post := by
  rcases List.mem_append.1 hd with hd | hd
  · exact List.mem_append_left _ hd
  · exact List.mem_append_right _ (List.mem_cons_of_mem _ hd)

/-- A connection's turn, where it is there and may take it. -/
def State.turn (o : State) (id : Nat) (may : Conn → Bool) (m : Act Unit) : Option State :=
  match o.conns.find? (fun c => c.id = id) with
  | none => none
  | some c =>
    if may c then
      let s := (m.run ⟨o.sh, c⟩).2
      some { o with sh := s.o, conns := setConn s.c o.conns }
    else none

def deliver (st : Status) (c : Conn) (p : Pend) : Conn :=
  if p.conn = some c.id ∧ c.dead = false then
    { c with
      out := c.out ++ (if st = .ok then p.frame
        else [⟨p.id, .error ⟨.storage, (text "the commit could not be made durable: the engine answered " ++
          text (statusName st) ++ text ", so whether it survives a crash is unknown").take 599, 0, 0, [], [], []⟩⟩])
      awaiting := false }
  else c

/-- `group_sync`: one sync for every commit made this round, then their replies. -/
def groupSync (st : Status) (o : State) : State :=
  { o with
    sh := { o.sh with asked := .synced st :: o.sh.asked, group := [] }
    conns := o.conns.map (fun c => o.sh.group.foldl (deliver st) c) }

/-- Whether `process` answers a connection's head request. -/
def Conn.answers (c : Conn) : Bool := !c.closing && !c.dead && c.work.isNone && !c.awaiting && !c.reqs.isEmpty

/-- What comes next, where it can. -/
def step (o : State) : Event → Option State
  | .tick ms => some { o with sh := { o.sh with now := o.sh.now + ms } }
  | .accept => if o.stopping then none
    else some { o with conns := o.conns ++ [Conn.start o.accepted], accepted := o.accepted + 1 }
  | .arrives id r => o.turn id (fun _ => !o.stopping) (enqueue r)
  | .malformed id short => o.turn id (fun _ => !o.stopping) (malformed short)
  | .gone id => o.turn id (fun _ => true) (onConn fun c => { c with dead := true })
  | .answer id a => o.turn id (fun c => !o.stopping && c.answers) (processHead a)
  | .slice id a => o.turn id (fun c => !o.stopping && !c.dead && c.work.isSome) (workStep a)
  | .sync st => if o.sh.group = [] then none else some (groupSync st o)
  | .flushed id n => o.turn id (fun c => decide (c.outPos + n ≤ c.out.length))
      (onConn fun c => { c with outPos := c.outPos + n })
  | .finish id => o.turn id (fun c => c.closing && decide (c.outPos = c.out.length))
      (onConn fun c => { c with dead := true })
  | .timeouts id => o.turn id (fun c => !o.stopping && !c.dead) timeoutConn
  | .reap id =>
    match o.conns.find? (fun c => c.id = id) with
    | none => none
    | some c =>
      if c.dead || o.stopping then
        some { o with sh := (connCleanup.run ⟨o.sh, c⟩).2.o, conns := o.conns.filter (fun d => d.id ≠ id) }
      else none
  | .stop => some { o with stopping := true }

/-- An owner starting, its service and options given. -/
def State.start (svc : Option Service) (opt : Options) : State :=
  ⟨⟨[], 0, svc, opt, none, [], 0, [], 0⟩, [], 0, false⟩

/-- A run of an owner, each event meeting a condition on what it finds. -/
inductive Runs (P : State → Event → Prop) (svc : Option Service) (opt : Options) : State → Prop where
  | start : Runs P svc opt (.start svc opt)
  | step {o o' : State} (h : Runs P svc opt o) (e : Event) (hp : P o e) (hs : Owner.step o e = some o') :
      Runs P svc opt o'

def State.runs (P : State → Event → Prop) [∀ o e, Decidable (P o e)] : List Event → State → Option State
  | [], o => some o
  | e :: es, o => if P o e then (Owner.step o e).bind (State.runs P es) else none

theorem Runs.follow {P : State → Event → Prop} [∀ o e, Decidable (P o e)] {svc : Option Service} {opt : Options} :
    ∀ {es : List Event} {o o' : State}, Runs P svc opt o → State.runs P es o = some o' → Runs P svc opt o'
  | [], _, _, h, hs => by
    cases hs
    exact h
  | e :: es, o, _, h, hs => by
    rw [State.runs] at hs
    split_ifs at hs with hp
    obtain ⟨o₁, h₁, hrest⟩ := Option.bind_eq_some_iff.1 hs
    exact (Runs.step h e hp h₁).follow hrest

def Reached : Option Service → Options → State → Prop := Runs (fun _ _ => True)

/-! ## A client -/

def sends (conn : Nat) (type : Msg) (id : Nat) (writes : Bool) (fields : List (String × FieldValue)) : Event :=
  .arrives conn ⟨type, id, false, some (fields.map (fun f => (text f.1, f.2))), .ok writes⟩

/-- Answers of an engine that does what it is asked, and of a service that does not finish a read at once. -/
def slow : Answers :=
  ⟨.ok, .ok, .ok, .ok, .ok, 1, fun sliced => if h : sliced then h ▸ .working else .done none [], .rows [] false, .ok []⟩

/-- A service that has all its functions, and idle limits as they are where none is set. -/
def fullService : Service := ⟨true, true⟩

def noOptions : Options := ⟨0, 0, 0, 0, 0⟩

end Owner
end Gbasic
