import Gbasic.Handles
import Gbasic.Table
/-!
# Owner — one request answered

The owner runs the transactions, the one writer and the cursors of many connections, and asks an engine and an SQL
service for the rest; what it asks is kept, the newest first (`Asked`).  Each function here is a turn of one connection:
it sees that connection and what all share.  What the engine and the service answer is given to the turn.  A handle is a
number not given before; an output keeps the frames it has written.
-/
namespace Gbasic
namespace Owner

open Lsm (Status)
open Key (Bytes)
open Gsql (statusName number)

def DEFAULT_IDLE_MS : Nat := 300000
def TIMED_OUT_KEPT : Nat := 16
def GSQL_PROTO_MAJOR : Nat := 1
def GSQL_PROTO_MINOR : Nat := 0
def GSQL_FRAME_MAX : Nat := 16 * 2 ^ 20

/-! ## Requests and replies -/

inductive Code where
  | ok | notFound | exists | duplicate | notNull | type | schema | corrupt | storage | misuse
  | protocol | version | tooLarge | cancelled | unsupported | state | readOnly | failed | timeout | lost | noOwner
  | syntaxError | expression | foreignKey | check | serial | elsewhere
  deriving DecidableEq, Repr

structure GsqlError where
  code : Code
  message : Bytes
  position : Nat
  row : Nat
  table : Bytes
  column : Bytes
  constraint : Bytes
  deriving DecidableEq

inductive Msg where
  | hello | welcome | refused | query | rows | fetch | close | prepare | prepared | begin | commit | rollback | cancel
  | done | ping | pong | bye | error
  | unknown (n : Nat)
  deriving DecidableEq, Repr

def Msg.number : Msg → Nat
  | .hello => 1 | .welcome => 2 | .refused => 3 | .query => 4 | .rows => 5 | .fetch => 6 | .close => 7 | .prepare => 8
  | .prepared => 9 | .begin => 10 | .commit => 11 | .rollback => 12 | .cancel => 13 | .done => 14 | .ping => 15
  | .pong => 16 | .bye => 17 | .error => 18 | .unknown n => n

def msgName : Msg → String
  | .hello => "HELLO" | .welcome => "WELCOME" | .refused => "REFUSED" | .query => "QUERY" | .rows => "ROWS"
  | .fetch => "FETCH" | .close => "CLOSE" | .prepare => "PREPARE" | .prepared => "PREPARED" | .begin => "BEGIN"
  | .commit => "COMMIT" | .rollback => "ROLLBACK" | .cancel => "CANCEL" | .done => "DONE" | .ping => "PING"
  | .pong => "PONG" | .bye => "BYE" | .error => "ERROR" | .unknown _ => "?"

inductive FieldValue where
  | u64 (n : Nat)
  | text (t : Bytes)
  | bool (b : Bool)
  | other (v : Bytes)
  deriving DecidableEq

/-- A request: its body's fields, where it is a record, and what the service says of its statement, which its text alone
decides: a refusal, or whether it writes. -/
structure Req where
  type : Msg
  id : Nat
  cancelHit : Bool
  fields : Option (List (Bytes × FieldValue))
  writes : Except GsqlError Bool

namespace Req

/-- `v3_field_named`. -/
def field (r : Req) (name : String) : Option FieldValue :=
  r.fields.bind (fun l => (l.find? (fun f => f.1 = text name)).map Prod.snd)

def u64 (r : Req) (name : String) : Option Nat :=
  match r.field name with
  | some (.u64 n) => some n
  | _ => none

/-- `field_text`. -/
def textOf (r : Req) (name : String) : Option Bytes :=
  match r.field name with
  | some (.text t) => some t
  | _ => none

def bool (r : Req) (name : String) : Option Bool :=
  match r.field name with
  | some (.bool b) => some b
  | _ => none

end Req

structure Statement where
  statement : FieldValue
  parameters : Option FieldValue
  principal : Option FieldValue
  batch : Nat
  maxRecursion : Nat
  sliced : Bool
  describe : Bool
  deriving DecidableEq

structure Commit where
  number : Nat
  txn : Nat
  deriving DecidableEq

structure Rows where
  columns : Bytes
  rows : Bytes
  warnings : Bytes
  deriving DecidableEq

inductive Reply where
  | refused (code : Code) (message : Bytes)
  | welcome (major minor pid device inode format : Nat)
  | pong
  | prepared (description : Bytes)
  | done (rows : Option Nat) (commit : Option Commit) (warnings : Bytes)
  | cancelled (hit : Bool)
  | rows (cursor : Option Nat) (body : Rows)
  | error (e : GsqlError)
  deriving DecidableEq

/-- A reply, and the request it carries the id of. -/
structure Frame where
  id : Nat
  reply : Reply
  deriving DecidableEq

/-! ## What is asked of the engine and the service -/

inductive Asked where
  | began (t : Txn)
  | savepoint (t : Nat)
  | release (t : Nat)
  | rollback (t : Nat)
  | ran (conn t : Nat) (auto : Bool) (s : Statement)
  | aborted (t : Nat)
  | committed (t : Nat) (synced : Bool) (st : Status)
  | opened (k : Cur)
  | fetched (k count : Nat)
  | resumed (k : Nat)
  | closed (k : Nat)
  | synced (st : Status)
  deriving DecidableEq

def Asked.call : Asked → Option Call
  | .began t => some (.begins t)
  | .savepoint t | .release t | .rollback t | .ran _ t _ _ => some (.uses t)
  | .aborted t | .committed t _ _ => some (.ends t)
  | .opened k => some (.opens k)
  | .fetched k _ | .resumed k => some (.looks k)
  | .closed k => some (.closes k)
  | .synced _ => none

/-- What the service answers of a run or of a slice; only a sliced statement is answered `working`. -/
inductive RunAnswer : Bool → Type where
  | refused {sliced : Bool} (e : GsqlError) (partWay : Bool) : RunAnswer sliced
  | working : RunAnswer true
  | rows {sliced : Bool} (body : Rows) (more : Bool) : RunAnswer sliced
  | done {sliced : Bool} (affected : Option Nat) (warnings : Bytes) : RunAnswer sliced

inductive FetchAnswer where
  | refused (e : GsqlError) (ended : Bool)
  | rows (body : Bytes) (more : Bool)

/-- What the engine and the service answer in one turn, each asked once at most. -/
structure Answers where
  begins : Status
  savepoint : Status
  release : Status
  rollback : Status
  commits : Status
  commitNumber : Nat
  run : (sliced : Bool) → RunAnswer sliced
  fetch : FetchAnswer
  prepare : Except GsqlError Bytes

/-! ## Connections -/

structure Cursor where
  id : Nat
  svc : Option Nat
  own : Option Nat
  lastMs : Nat
  deriving DecidableEq

inductive Tx where
  | none | read | write | failed | timedOut
  deriving DecidableEq, Repr

/-- A request answered in its own turn: whether with a DONE, in what state of the connection's transaction, and the
transaction it had after. -/
structure Past where
  type : Msg
  done : Bool
  tx : Tx
  txn : Option Nat
  deriving DecidableEq

/-- `Conn`, and for what is proved of it the ids it was sent (`got`) and the requests answered, the newest first
(`past`). -/
structure Conn where
  id : Nat
  hello : Bool
  closing : Bool
  dead : Bool
  out : List Frame
  outPos : Nat
  reqs : List Req
  tx : Tx
  depth : Nat
  txn : Option Nat
  txMs : Nat
  why : Bytes
  cursors : List Cursor
  timedOut : List Nat
  queued : Bool
  work : Option Nat
  workTxn : Option Nat
  workId : Nat
  awaiting : Bool
  lastCommitMs : Option Nat
  got : List Nat
  past : List Past

def Conn.start (id : Nat) : Conn :=
  ⟨id, false, false, false, [], 0, [], .none, 0, none, 0, [], [], [], false, none, none, 0, false, none, [], []⟩

/-- A commit's frame waiting for the sync that covers it, and its connection while that is there. -/
structure Pend where
  conn : Option Nat
  id : Nat
  frame : List Frame
  deriving DecidableEq

/-- Which of its optional functions the service has. -/
structure Service where
  prepares : Bool
  resumes : Bool

structure Options where
  snapshotIdleMs : Nat
  writerIdleMs : Nat
  pid : Nat
  device : Nat
  inode : Nat

structure Shared where
  asked : List Asked
  handles : Nat
  svc : Option Service
  opt : Options
  writer : Option Nat
  fifo : List Nat
  nextCursor : Nat
  group : List Pend
  now : Nat

structure Turn where
  o : Shared
  c : Conn

abbrev Act := StateM Turn

def onConn (f : Conn → Conn) : Act Unit := modify fun s => { s with c := f s.c }

def onShared (f : Shared → Shared) : Act Unit := modify fun s => { s with o := f s.o }

def ask (a : Asked) : Act Unit := onShared fun o => { o with asked := a :: o.asked }

def askIf (b : Bool) (a : Asked) : Act Unit := if b then ask a else pure ()

def handle : Act Nat := fun s => (s.o.handles, { s with o := { s.o with handles := s.o.handles + 1 } })

/-! ## Output -/

def outFrame (id : Nat) (r : Reply) : Act Unit := onConn fun c => { c with out := c.out ++ [⟨id, r⟩] }

def sendErrorAbout (id : Nat) (e : GsqlError) : Act Unit := outFrame id (.error e)

def sendError (id : Nat) (code : Code) (message : Bytes) : Act Unit :=
  sendErrorAbout id ⟨code, message.take 599, 0, 0, [], [], []⟩

def sendDone (id : Nat) (affected : Option Nat) (commit : Option Commit) (warnings : Bytes) : Act Unit :=
  outFrame id (.done affected commit warnings)

/-! ## The writer slot -/

def fifoRemove : Act Unit := do
  let s ← get
  onShared fun o => { o with fifo := o.fifo.erase s.c.id }
  onConn fun c => { c with queued := false }

def leaveQueue : Act Unit := do
  if (← get).c.queued then fifoRemove else pure ()

def joinQueue : Act Unit := do
  let s ← get
  if s.c.queued then pure ()
  else
    onShared fun o => { o with fifo := o.fifo ++ [s.c.id] }
    onConn fun c => { c with queued := true }

/-- `writer_take`: whether the connection may write now; if not, it waits its turn. -/
def writerTake : Act Bool := do
  let s ← get
  if s.o.writer = some s.c.id then return true
  else if s.o.writer = none ∧ (s.o.fifo = [] ∨ s.o.fifo.head? = some s.c.id) then
    leaveQueue
    return true
  else
    joinQueue
    return false

/-! ## Transactions and cursors -/

def abort (t : Nat) : Act Unit := ask (.aborted t)

def abortOwn : Option Nat → Act Unit
  | some t => abort t
  | none => pure ()

def closeSvc : Option Nat → Act Unit
  | some k => ask (.closed k)
  | none => pure ()

/-- `begin_write` and `begin_read`. -/
def beginTxn (write : Bool) (st : Status) : Act (Option Nat) :=
  if st = .ok then do
    let t ← handle
    ask (.began ⟨t, write⟩)
    return some t
  else return none

def cursorFree (k : Cursor) : Act Unit := do
  closeSvc k.svc
  abortOwn k.own

def cursorUnlink (k : Cursor) : Act Unit := onConn fun c => { c with cursors := c.cursors.erase k }

def cursorDrop (k : Cursor) : Act Unit := do
  cursorUnlink k
  cursorFree k

def freeAll : List Cursor → Act Unit
  | [] => pure ()
  | k :: ks => do
    cursorFree k
    freeAll ks

/-- `cursors_of_txn`: the cursors opened inside the connection's transaction. -/
def cursorsOfTxn : Act Unit := do
  let s ← get
  onConn fun c => { c with cursors := c.cursors.filter (fun k => k.own.isSome) }
  freeAll (s.c.cursors.filter (fun k => k.own.isNone))

def leaveSlot : Act Unit := do
  let s ← get
  onShared fun o => { o with writer := if o.writer = some s.c.id then none else o.writer }

def txnDrop : Act Unit := do
  cursorsOfTxn
  abortOwn (← get).c.txn
  onConn fun c => { c with txn := none }
  leaveSlot

def txnEnd : Act Unit := do
  txnDrop
  onConn fun c => { c with tx := .none, depth := 0, why := [] }

def txnFailed (why : Bytes) : Act Unit := do
  txnDrop
  onConn fun c => { c with tx := .failed, why := why.take 299 }

def storageFailed (what : Bytes) : Act Unit :=
  txnFailed (text "an earlier statement failed in the engine (" ++ what.take 200 ++ text ")")

def workEnd : Act Unit := do
  let s ← get
  match s.c.work with
  | some k =>
    ask (.closed k)
    abortOwn s.c.workTxn
    onConn fun c => { c with work := none, workTxn := none }
  | none => pure ()

/-- `txn_refuses`: a transaction that cannot take a statement answers why, and true. -/
def txnRefuses (id : Nat) : Act Bool := do
  let s ← get
  match s.c.tx with
  | .failed =>
    sendError id .failed (s.c.why ++ text "; the transaction was rolled back, and ROLLBACK acknowledges it")
    return true
  | .timedOut =>
    sendError id .timeout (s.c.why ++ text "; ROLLBACK acknowledges it")
    return true
  | _ => return false

/-! ## A commit's reply -/

/-- `group_add`: a DONE already in the output is taken back out and kept for the sync. -/
def groupAdd (id mark : Nat) : Act Unit := do
  let s ← get
  onShared fun o => { o with group := o.group ++ [⟨some s.c.id, id, s.c.out.drop mark⟩] }
  onConn fun c => { c with lastCommitMs := some s.o.now, out := c.out.take mark, awaiting := true }

/-- The transaction's commit, which ends it whatever it answers. -/
def commit (a : Answers) (t : Nat) (synced : Bool) : Act Status := do
  ask (.committed t synced a.commits)
  return a.commits

def sendCommitted (a : Answers) (id t : Nat) (affected : Option Nat) (warnings : Bytes) : Act Unit := do
  if a.commits = .ok then
    let mark := (← get).c.out.length
    sendDone id affected (some ⟨a.commitNumber, t⟩) warnings
    groupAdd id mark
  else
    sendError id .storage (text "the commit failed: the engine answered " ++ text (statusName a.commits) ++
      text ", and nothing was written")

def sendRows (id : Nat) (body : Rows) (svc own : Option Nat) : Act Unit := do
  let s ← get
  match svc with
  | some k =>
    let cid := s.o.nextCursor + 1
    onShared fun o => { o with nextCursor := cid }
    onConn fun c => { c with cursors := ⟨cid, some k, own, s.o.now⟩ :: c.cursors }
    outFrame id (.rows (some cid) body)
  | none =>
    abortOwn own
    outFrame id (.rows none body)

/-! ## Requests -/

inductive Outcome where
  | done | parked | working
  deriving DecidableEq

inductive Ran where
  | refused (e : GsqlError) (partWay : Bool)
  | working (k : Nat)
  | rows (body : Rows) (k : Option Nat)
  | done (affected : Option Nat) (warnings : Bytes)

def openCursor (t : Nat) : Act Nat := do
  let k ← handle
  ask (.opened ⟨k, t⟩)
  return k

def ranIn (t : Nat) : {sliced : Bool} → RunAnswer sliced → Act Ran
  | _, .refused e partWay => return .refused e partWay
  | _, .working => return .working (← openCursor t)
  | _, .rows body true => return .rows body (some (← openCursor t))
  | _, .rows body false => return .rows body none
  | _, .done affected warnings => return .done affected warnings

def runStatement (a : Answers) (t : Nat) (auto : Bool) (s : Statement) : Act Ran := do
  ask (.ran (← get).c.id t auto s)
  ranIn t (a.run s.sliced)

def setWork (id k : Nat) (own : Option Nat) : Act Unit :=
  onConn fun c => { c with work := some k, workTxn := own, workId := id }

def endWrite (a : Answers) (id t : Nat) : Ran → Act Outcome
  | .refused e _ => do
    abort t
    sendErrorAbout id e
    return .done
  | .working k => do
    setWork id k (some t)
    return .working
  | .rows body k => do
    -- a cursor could not outlive the transaction; rows are synced at once
    closeSvc k
    if (← commit a t true) = .ok then sendRows id body none none else sendCommitted a id t none []
    return .done
  | .done affected warnings => do
    let _ ← commit a t false
    sendCommitted a id t affected warnings
    return .done

/-- `do_query` with no transaction open, for a statement that writes. -/
def queryWrite (a : Answers) (r : Req) (s : Statement) : Act Outcome := do
  if (← writerTake) = false then return .parked
  else
    match ← beginTxn true a.begins with
    | none =>
      sendError r.id .storage (text "a write transaction could not begin: the engine answered " ++
        text (statusName a.begins))
      return .done
    | some t => endWrite a r.id t (← runStatement a t true { s with batch := 2 ^ 32 - 1 })

def endRead (id t : Nat) : Ran → Act Outcome
  | .refused e _ => do
    abort t
    sendErrorAbout id e
    return .done
  | .working k => do
    setWork id k (some t)
    return .working
  | .rows body k => do
    sendRows id body k (some t)
    return .done
  | .done affected warnings => do
    abort t
    sendDone id affected none warnings
    return .done

/-- `do_query` with no transaction open, for a statement that reads. -/
def queryRead (a : Answers) (r : Req) (s : Statement) : Act Outcome := do
  match ← beginTxn false a.begins with
  | none =>
    sendError r.id .storage (text "a snapshot could not be taken: the engine answered " ++ text (statusName a.begins))
    return .done
  | some t => endRead r.id t (← runStatement a t true s)

def queryUndo (a : Answers) (t : Nat) (marked : Bool) (e : GsqlError) (partWay : Bool) : Act Unit := do
  askIf marked (if e.code = .storage then .release t else .rollback t)
  if e.code = .storage then storageFailed e.message
  else if partWay && !(marked && decide (a.rollback = .ok)) then
    txnFailed (text "an earlier statement failed part way, after changing rows (" ++ e.message.take 200 ++ text ")")
  else pure ()

def endInside (a : Answers) (id t : Nat) (marked : Bool) : Ran → Act Outcome
  | .refused e partWay => do
    queryUndo a t marked e partWay
    sendErrorAbout id e
    return .done
  | .working k => do
    askIf marked (.release t)
    setWork id k none
    return .working
  | .rows body k => do
    askIf marked (.release t)
    sendRows id body k none
    return .done
  | .done affected warnings => do
    askIf marked (.release t)
    sendDone id affected none warnings
    return .done

/-- `do_query` inside a transaction: a statement that writes runs under a savepoint of its own. -/
def queryInside (a : Answers) (r : Req) (s : Statement) (w : Bool) (t : Nat) : Act Outcome := do
  let marking := w && decide ((← get).c.tx = .write)
  askIf marking (.savepoint t)
  endInside a r.id t (marking && decide (a.savepoint = .ok)) (← runStatement a t false s)

def batchOf (r : Req) : Nat :=
  match r.u64 "batch" with
  | some n => if n = 0 then 100 else min n (2 ^ 32 - 1)
  | none => 100

/-- The statement of a request, of which the service said whether it writes; one only described runs nothing. -/
def statementOf (r : Req) (stmt : FieldValue) (svc : Service) (w : Bool) : Statement :=
  ⟨stmt, r.field "parameters", r.field "principal", batchOf r, (r.u64 "max_recursion").getD 0, !w && svc.resumes,
    (r.bool "describe").getD false⟩

def queryIn (a : Answers) (r : Req) (s : Statement) (w : Bool) : Act Outcome := do
  let c := (← get).c
  if w && decide (c.tx = .read) then
    sendError r.id .readOnly (text "the statement writes, and this transaction began READ")
    return .done
  else if c.tx = .none then
    if w then queryWrite a r s else queryRead a r s
  else
    match c.txn with
    | some t => queryInside a r s w t
    | none => return .done

def doQuery (a : Answers) (r : Req) : Act Outcome := do
  match r.field "statement", (← get).o.svc with
  | none, _ =>
    sendError r.id .protocol (text "a QUERY needs a `statement` field")
    return .done
  | some _, none =>
    sendError r.id .unsupported (text "this owner has no SQL layer: the statement cannot be run")
    return .done
  | some stmt, some svc =>
    if ← txnRefuses r.id then return .done
    else
      match r.writes with
      | .error e =>
        sendErrorAbout r.id e
        return .done
      | .ok writes =>
        let w := writes && !(r.bool "describe").getD false
        queryIn a r (statementOf r stmt svc w) w

def cursorId (r : Req) : Act (Option Nat) := do
  match r.u64 "cursor" with
  | some id => return some id
  | none =>
    sendError r.id .protocol (text "a " ++ text (msgName r.type) ++ text " needs a `cursor` field holding its id")
    return none

def cursorMissing (req id : Nat) : Act Unit := do
  if id ∈ (← get).c.timedOut then
    sendError req .timeout (text "cursor " ++ number id ++ text (" was closed after being idle past the timeout, " ++
      "since its snapshot keeps replaced files from being deleted"))
  else
    sendError req .notFound (text "there is no cursor " ++ number id ++ text " on this connection")

def fetchFrom (a : Answers) (req id : Nat) (k : Cursor) (svc : Nat) : Act Unit := do
  match a.fetch with
  | .refused e true => do
    ask (.closed svc)
    cursorUnlink k
    abortOwn k.own
    sendError req e.code e.message
  | .refused e false => do
    cursorDrop k
    sendError req e.code e.message
  | .rows body true => do
    let now := (← get).o.now
    onConn fun c => { c with cursors := c.cursors.map (fun x => if x = k then { x with lastMs := now } else x) }
    outFrame req (.rows (some id) ⟨[], body, []⟩)
  | .rows body false => do
    outFrame req (.rows none ⟨[], body, []⟩)
    ask (.closed svc)
    cursorUnlink k
    abortOwn k.own

def doFetch (a : Answers) (r : Req) : Act Unit := do
  match ← cursorId r with
  | none => pure ()
  | some id =>
    match (← get).c.cursors.find? (fun k => k.id = id) with
    | none => cursorMissing r.id id
    | some k =>
      match k.svc with
      | none => pure ()
      | some svc =>
        let count := (r.u64 "count").getD 100
        ask (.fetched svc (if count = 0 then 1 else min count (2 ^ 32 - 1)))
        fetchFrom a r.id id k svc

/-- `do_begin` inside a transaction: in one that writes a savepoint, so the matching COMMIT keeps what was done since
and the matching ROLLBACK undoes only that. -/
def beginNested (a : Answers) (r : Req) (write : Bool) : Act Unit := do
  let c := (← get).c
  match c.tx, c.txn with
  | .write, some t =>
    ask (.savepoint t)
    if a.savepoint = .ok then
      onConn fun c => { c with depth := c.depth + 1 }
      sendDone r.id none none []
    else
      sendError r.id .storage (text "a nested BEGIN could not take a savepoint: the engine answered " ++
        text (statusName a.savepoint))
  | _, _ =>
    if write && decide (c.tx = .read) then
      sendError r.id .readOnly (text ("a write BEGIN inside a transaction that began READ; " ++
        "a read transaction cannot start writing"))
    else
      onConn fun c => { c with depth := c.depth + 1 }
      sendDone r.id none none []

/-- `do_begin` with no transaction open, a writer's turn come. -/
def beginOutermost (a : Answers) (r : Req) (write : Bool) : Act Unit := do
  match ← beginTxn write a.begins with
  | none =>
    onConn fun c => { c with txn := none }
    sendError r.id .storage (text "BEGIN " ++ text (if write then "WRITE" else "READ") ++
      text " failed: the engine answered " ++ text (statusName a.begins))
  | some t =>
    let s ← get
    onShared fun o => { o with writer := if write then some s.c.id else o.writer }
    onConn fun c => { c with txn := some t, tx := if write then .write else .read, txMs := s.o.now }
    sendDone r.id none none []

def beginIn (a : Answers) (r : Req) (write : Bool) : Act Outcome := do
  if (← get).c.tx ≠ .none then
    beginNested a r write
    return .done
  else if write then
    if (← writerTake) = false then return .parked
    else
      beginOutermost a r write
      return .done
  else
    beginOutermost a r write
    return .done

def doBegin (a : Answers) (r : Req) : Act Outcome := do
  if ← txnRefuses r.id then return .done
  else
    match r.textOf "mode" with
    | none =>
      sendError r.id .protocol (text "BEGIN needs `mode`, \"read\" or \"write\"")
      return .done
    | some mode =>
      if cString mode = text "write" then beginIn a r true
      else if cString mode = text "read" then beginIn a r false
      else
        sendError r.id .protocol (text "BEGIN needs `mode`, \"read\" or \"write\" (got \"" ++ cString mode ++
        text "\")")
        return .done

def releaseNested (a : Answers) : Act Status := do
  let c := (← get).c
  match c.tx, c.txn with
  | .write, some t =>
    ask (.release t)
    return a.release
  | _, _ => return .ok

/-- The matching COMMIT of a nested BEGIN: what it did is kept inside the transaction, which goes on. -/
def commitNested (a : Answers) (r : Req) : Act Unit := do
  let st ← releaseNested a
  onConn fun c => { c with depth := c.depth - 1 }
  if st = .ok then sendDone r.id none none []
  else
    storageFailed (text (statusName st))
    let _ ← txnRefuses r.id

def commitOutermost (a : Answers) (r : Req) (t : Nat) : Act Unit := do
  cursorsOfTxn
  let _ ← commit a t false
  onConn fun c => { c with txn := none }
  txnEnd
  sendCommitted a r.id t none []

def doCommit (a : Answers) (r : Req) : Act Unit := do
  let c := (← get).c
  match c.tx with
  | .none => sendError r.id .state (text "COMMIT with no transaction open")
  | .failed | .timedOut =>
    -- it says it was rolled back, and ends it
    let _ ← txnRefuses r.id
    txnEnd
  | .read =>
    if 0 < c.depth then commitNested a r
    else
      txnEnd
      sendDone r.id none none []
  | .write =>
    if 0 < c.depth then commitNested a r
    else
      match c.txn with
      | none => pure ()
      | some t => commitOutermost a r t

def rollbackNested (a : Answers) (r : Req) (t : Nat) : Act Unit := do
  cursorsOfTxn
  ask (.rollback t)
  onConn fun c => { c with depth := c.depth - 1 }
  if a.rollback = .ok then sendDone r.id none none []
  else if a.rollback = .tooLarge then
    txnFailed (text ("the work since the nested BEGIN was too large to undo by itself (its old rows " ++
      "outgrew the bound kept for them), so the whole transaction was rolled back"))
    let _ ← txnRefuses r.id
  else
    storageFailed (text (statusName a.rollback))
    let _ ← txnRefuses r.id

/-- The outermost ROLLBACK, or one of a transaction the engine has ended, at any depth: every level of it goes. -/
def rollbackAll (r : Req) : Act Unit := do
  txnEnd
  sendDone r.id none none []

def doRollback (a : Answers) (r : Req) : Act Unit := do
  let c := (← get).c
  match c.tx with
  | .none => sendError r.id .state (text "ROLLBACK with no transaction open")
  | .write =>
    if 0 < c.depth then
      match c.txn with
      | none => pure ()
      | some t => rollbackNested a r t
    else rollbackAll r
  | .read =>
    if 0 < c.depth then
      onConn fun c => { c with depth := c.depth - 1 }
      sendDone r.id none none []
    else rollbackAll r
  | .failed | .timedOut => rollbackAll r

def doClose (r : Req) : Act Unit := do
  match ← cursorId r with
  | none => pure ()
  | some id =>
    match (← get).c.cursors.find? (fun k => k.id = id) with
    | none => cursorMissing r.id id
    | some k =>
      cursorDrop k
      sendDone r.id none none []

def doPrepare (a : Answers) (r : Req) : Act Unit := do
  match (← get).o.svc, r.field "statement" with
  | none, _ => sendError r.id .unsupported (text "this owner has no SQL layer: nothing can be prepared")
  | some svc, stmt =>
    if svc.prepares = false then
      sendError r.id .unsupported (text "this owner's service does not prepare statements")
    else if stmt.isNone then sendError r.id .protocol (text "a PREPARE needs a `statement` field")
    else
      match a.prepare with
      | .error e => sendErrorAbout r.id e
      | .ok d => outFrame r.id (.prepared d)

def refuse (id : Nat) (code : Code) (message : Bytes) : Act Unit := do
  outFrame id (.refused code message)
  onConn fun c => { c with closing := true }

def doHello (r : Req) : Act Unit := do
  match r.u64 "major", r.u64 "minor" with
  | some major, some minor =>
    if major = GSQL_PROTO_MAJOR then
      onConn fun c => { c with hello := true }
      let opt := (← get).o.opt
      outFrame r.id (.welcome GSQL_PROTO_MAJOR GSQL_PROTO_MINOR opt.pid opt.device opt.inode 1)
    else
      refuse r.id .version (text "the client speaks protocol " ++ number major ++ text "." ++ number minor ++
        text " and this owner speaks " ++ number GSQL_PROTO_MAJOR ++ text "." ++ number GSQL_PROTO_MINOR ++
        text "; the major versions must match")
  | _, _ =>
    refuse r.id .protocol (text "HELLO needs `major` and `minor`, the protocol version the client speaks")

def answerOther (a : Answers) (r : Req) : Act Unit :=
  match r.type with
  | .ping => outFrame r.id .pong
  | .bye => onConn fun c => { c with closing := true }
  | .commit => doCommit a r
  | .rollback => doRollback a r
  | .fetch => doFetch a r
  | .close => doClose r
  | .prepare => doPrepare a r
  | .cancel => outFrame r.id (.cancelled r.cancelHit)
  | .hello => sendError r.id .state (text "HELLO was already answered on this connection")
  | t => sendError r.id .protocol (text (msgName t) ++ text " (type " ++ number t.number ++
      text ") is not a request a client sends")

def touch : Act Unit := do
  let now := (← get).o.now
  onConn fun c => { c with txMs := if c.tx = .none then c.txMs else now }

def handleReq (a : Answers) (r : Req) : Act Outcome := do
  if (← get).c.hello then
    touch
    match r.type with
    | .begin => doBegin a r
    | .query => doQuery a r
    | _ =>
      answerOther a r
      return .done
  else if r.type = .hello then
    doHello r
    return .done
  else
    refuse r.id .protocol (text "the first message must be HELLO, and this was " ++ text (msgName r.type))
    return .done

end Owner
end Gbasic
