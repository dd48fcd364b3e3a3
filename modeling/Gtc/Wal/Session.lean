/-
One `Reader.streamLoop` session: the streaming goroutine, the delivery
goroutine, and what they share.

A step is one atomic action of one of the two: a channel operation, an atomic
load or store, a handler call returning, or local work between them. Time, the
contexts, the server and the handler decide nothing here: each of their
outcomes is an action of its own, so that every timing and every outcome is
some run.

The streaming goroutine is in the middle of a `confirm`, or of an `enqueue`
(`sending`), or has work left of the message it decoded (`work`), or else is
at a point of the loop body (`pc`); `point` says which. Events carry where
they come from, and a session keeps a log of what it did; nothing reads
either.
-/
import Gtc.Wal.Decoder
import Gtc.Lib.History

namespace Gtc.Wal

variable {V : Type}

/-! ## Events, units, the log -/

/-- Where an event comes from: the `index`th event of a WAL message, or the
`index`th row returned for the watermark in it. -/
inductive Origin where
  | wal (message index : ℕ)
  | backfill (message index : ℕ)
deriving DecidableEq, Repr

structure Event (V : Type) where
  event : CDCEvent V
  origin : Origin
deriving DecidableEq, Repr

def tag (origin : ℕ → Origin) (events : List (CDCEvent V)) : List (Event V) :=
  events.mapIdx fun i event => { event, origin := origin i }

/-- A watermark, with all that `HandleWatermark` returned for it. -/
structure Watermark (V : Type) where
  content : Bytes
  rows : List (Event V)
deriving DecidableEq, Repr

/-- `delivery`: one ordered unit of work for the delivery goroutine. -/
structure Delivery (V : Type) where
  events : List (Event V)
  /-- Confirmed once the events are handled; 0 for nothing. -/
  ack : LSN := 0
  /-- Reported delivered once the events are handled. -/
  watermark : Option (Watermark V) := none
deriving DecidableEq, Repr

inductive Entry (V : Type) where
  | decoded (message : ℕ) (events : List (Event V))
  | enqueued (d : Delivery V)
  /-- Removed from the queue by the teardown. -/
  | dropped (d : Delivery V)
  /-- The handler was called. -/
  | handed (d : Delivery V)
  /-- The handler returned nil; a unit without events needs no call. -/
  | handled (d : Delivery V)
  /-- `WatermarkDelivered`. -/
  | delivered (w : Watermark V)
  /-- `sendStandbyStatus`. -/
  | reported (lsn : LSN)
deriving DecidableEq, Repr

/-! ## The goroutines -/

inductive Phase where
  | running
  /-- The deferred function takes what is left in the queue. -/
  | draining
  /-- `wg.Wait`. -/
  | waiting
  | returned
deriving DecidableEq, Repr

/-- `confirm`: the load, the store, and the reset of `pendingAck` after it. -/
inductive Confirming where
  | load (lsn : LSN)
  | store (lsn : LSN)
  | reset
deriving DecidableEq, Repr

/-- What the rest of an iteration does with a decoded message. -/
inductive Task (V : Type) where
  | append (e : Event V)
  /-- `flush`, then `HandleWatermark` and `enqueue` for its rows. -/
  | handleWatermark (message : ℕ) (content : Bytes)
  | ack (lsn : LSN)
  | reply
deriving DecidableEq, Repr

/-- The points of the loop body. -/
inductive LoopPoint where
  | check
  | linger
  | idle
  | deadline
  | receive
deriving DecidableEq, Repr

/-- The delivery goroutine. -/
inductive Worker (V : Type) where
  | idle
  | handling (d : Delivery V)
  | marking (d : Delivery V)
  | loading (d : Delivery V)
  | storing (d : Delivery V)
  | finishing (d : Delivery V)
  /-- The handler failed and the goroutine returned. -/
  | failed (d : Delivery V)
  | returned
deriving DecidableEq, Repr

structure Session (V : Type) where
  clientLSN : LSN
  queue : List (Delivery V) := []
  closed : Bool := false
  /-- An error waits in `failed`. -/
  failed : Bool := false
  outstanding : Int := 0
  phase : Phase := .running
  decoder : Decoder
  /-- Messages received. -/
  received : ℕ := 0
  batch : List (Event V) := []
  pendingAck : LSN := 0
  pc : LoopPoint := .check
  work : List (Task V) := []
  /-- The units `enqueue` still has to hand over, and whether the first is
  counted in `outstanding` yet. -/
  sending : List (Delivery V) := []
  added : Bool := false
  confirming : Option Confirming := none
  worker : Worker V := .idle
  log : List (Entry V) := []

/-- The part of `Config` the loop uses. -/
structure Config (V : Type) where
  typeMap : TypeMap V
  /-- `Controller != nil`. -/
  controller : Bool
  maxBatchEvents : Int

def defaultMaxBatchEvents : ℕ := 5000

def Config.maxBatch (cfg : Config V) : ℕ :=
  if cfg.maxBatchEvents ≤ 0 then defaultMaxBatchEvents else cfg.maxBatchEvents.toNat

def deliveryQueueDepth : ℕ := 2

def watermarkPrefix : String := "gtc-backfill"

/-! ## Local work -/

namespace Session

/-- `flush`: the open batch becomes a unit to enqueue. -/
def flush (s : Session V) : Session V :=
  if s.batch = [] then s
  else { s with sending := [{ events := s.batch, ack := s.pendingAck }], batch := [], pendingAck := 0 }

/-- The loop body over one decoded event. -/
def appendEvent (maxBatch : ℕ) (s : Session V) (e : Event V) : Session V :=
  let s := { s with batch := s.batch ++ [e] }
  if s.batch.length ≥ maxBatch then s.flush else s

/-- The units of a watermark's rows: at most `maxBatch` rows each, the
watermark on the last. `fuel` covers the rows. -/
def watermarkUnits (maxBatch : ℕ) (w : Watermark V) : ℕ → List (Event V) → List (Delivery V)
  | 0, rows => [{ events := rows, watermark := some w }]
  | fuel + 1, rows =>
    if rows.length ≤ maxBatch then [{ events := rows, watermark := some w }]
    else { events := rows.take maxBatch } :: watermarkUnits maxBatch w fuel (rows.drop maxBatch)

/-- A logical message is a watermark when there is a controller and it has the
prefix. -/
def watermarkTasks (cfg : Config V) (k : ℕ) : Option LogicalMessage → List (Task V)
  | some msg => if msg.pfx = watermarkPrefix ∧ cfg.controller then [.handleWatermark k msg.content] else []
  | none => []

/-- What is left to do with the result of decoding message number `k`. -/
def messageTasks (cfg : Config V) (k : ℕ) (result : DecodeResult V) : List (Task V) :=
  (tag (.wal k) result.events).map .append ++ watermarkTasks cfg k result.message ++ [.ack result.ackLSN] ++
    if result.requestReply then [.reply] else []

/-- The loop returns: deferred functions run, local state is gone. -/
def teardown (s : Session V) : Session V :=
  { s with phase := .draining, confirming := none, sending := [], added := false, work := [], batch := [],
           pendingAck := 0 }

/-- `sendStandbyStatus`. -/
def report (s : Session V) : Session V := { s with log := s.log ++ [Entry.reported s.clientLSN] }

end Session

/-- Where the streaming goroutine is. -/
inductive Point (V : Type) where
  | confirming (c : Confirming)
  | sending (d : Delivery V) (ds : List (Delivery V))
  | working (t : Task V) (ts : List (Task V))
  | loop (pc : LoopPoint)

def Session.point (s : Session V) : Point V :=
  match s.confirming, s.sending, s.work with
  | some c, _, _ => .confirming c
  | none, d :: ds, _ => .sending d ds
  | none, [], t :: ts => .working t ts
  | none, [], [] => .loop s.pc

/-! ## Steps of the streaming goroutine -/

inductive StreamAct (V : Type) where
  /-- The next step, where nothing outside decides it. -/
  | go
  /-- The timer or deadline has not come. -/
  | skip
  /-- A keepalive is due and sent. -/
  | keepalive
  /-- Shutdown, a done context, a failed delivery or a failed operation. -/
  | stop
  /-- `HandleWatermark` returns these rows. -/
  | rows (rows : List (CDCEvent V))

def confirmStep (s : Session V) : Confirming → Session V
  | .load lsn => { s with confirming := some (if lsn > s.clientLSN then .store lsn else .reset) }
  | .store lsn => { s with clientLSN := lsn, confirming := some .reset }
  | .reset => { s with pendingAck := 0, confirming := none }

/-- `enqueue` of `d`, with `ds` to follow. -/
def sendStep (s : Session V) (d : Delivery V) (ds : List (Delivery V)) : StreamAct V → Option (Session V)
  | .go =>
    if s.added then
      if s.queue.length < deliveryQueueDepth then
        some { s with queue := s.queue ++ [d], sending := ds, added := false, log := s.log ++ [Entry.enqueued d] }
      else none
    else some { s with outstanding := s.outstanding + 1, added := true }
  | .keepalive => if s.added then some s.report else none
  | .stop => if s.added then some s.teardown else none
  | _ => none

def workStep (cfg : Config V) (s : Session V) (t : Task V) (ts : List (Task V)) : StreamAct V → Option (Session V)
  | .go =>
    match t with
    | .append e => some (Session.appendEvent cfg.maxBatch { s with work := ts } e)
    | .handleWatermark _ _ => if s.batch = [] then none else some s.flush
    | .ack lsn => some { s with work := ts, pendingAck := if lsn > 0 ∧ lsn > s.pendingAck then lsn else s.pendingAck }
    | .reply => none
  | .rows rows =>
    match t with
    | .handleWatermark k content =>
      let rows := tag (.backfill k) rows
      if s.batch = [] then
        some { s with work := ts, sending := Session.watermarkUnits cfg.maxBatch { content, rows } rows.length rows }
      else none
    | _ => none
  | .keepalive =>
    match t with
    | .reply => some (Session.report { s with work := ts })
    | _ => none
  | .stop =>
    match t with
    | .reply => some s.report.teardown
    | _ => none
  | .skip => none

/-- A received message: an `ErrorResponse` or one that does not decode ends the
loop. -/
def receiveStep (cfg : Config V) (s : Session V) (m : BackendMessage) : Session V :=
  let s := { s with received := s.received + 1, pc := .check }
  match m with
  | .errorResponse _ => s.teardown
  | m =>
    match s.decoder.decode cfg.typeMap m with
    | .error _ => s.teardown
    | .ok (result, decoder) =>
      { s with decoder, work := Session.messageTasks cfg (s.received - 1) result,
               log := s.log ++ [Entry.decoded (s.received - 1) (tag (.wal (s.received - 1)) result.events)] }

def loopStep (cfg : Config V) (stream : List BackendMessage) (s : Session V) : LoopPoint → StreamAct V → Option (Session V)
  | .check, .go => if s.failed then none else some { s with pc := .linger }
  | .check, .stop => some s.teardown
  | .linger, .go => some (Session.flush { s with pc := .idle })
  | .linger, .skip => some { s with pc := .idle }
  | .idle, .go =>
    if s.pendingAck > 0 ∧ s.batch = [] ∧ s.outstanding = 0 then
      some { s with pc := .deadline, confirming := some (.load s.pendingAck) }
    else some { s with pc := .deadline }
  | .deadline, .keepalive => some (Session.report { s with pc := .receive })
  | .deadline, .skip => some { s with pc := .receive }
  | .deadline, .stop => some s.report.teardown
  | .receive, .go => stream[s.received]?.map (receiveStep cfg s)
  | .receive, .skip => some { s with pc := .check }
  | .receive, .stop => some s.teardown
  | _, _ => none

/-- The deferred function: takes what is queued, closes the queue, waits. -/
def teardownStep (s : Session V) : Option (Session V) :=
  match s.phase with
  | .draining =>
    match s.queue with
    | d :: queue => some { s with queue, log := s.log ++ [Entry.dropped d] }
    | [] => some { s with phase := .waiting, closed := true }
  | .waiting =>
    match s.worker with
    | .returned | .failed _ => some { s with phase := .returned }
    | _ => none
  | _ => none

def streamStep (cfg : Config V) (stream : List BackendMessage) (s : Session V) (a : StreamAct V) : Option (Session V) :=
  if s.phase = .running then
    match s.point with
    | .confirming c => some (confirmStep s c)
    | .sending d ds => sendStep s d ds a
    | .working t ts => workStep cfg s t ts a
    | .loop pc => loopStep cfg stream s pc a
  else teardownStep s

/-! ## Steps of the delivery goroutine -/

/-- One step; `ok` is whether the handler returns nil. -/
def deliveryStep (s : Session V) (ok : Bool) : Option (Session V) :=
  match s.worker with
  | .idle =>
    match s.queue with
    | d :: queue =>
      if d.events = [] then some { s with queue, worker := .marking d, log := s.log ++ [Entry.handled d] }
      else some { s with queue, worker := .handling d, log := s.log ++ [Entry.handed d] }
    | [] => if s.closed then some { s with worker := .returned } else none
  | .handling d =>
    if ok then some { s with worker := .marking d, log := s.log ++ [Entry.handled d] }
    else some { s with worker := .failed d, failed := true }
  | .marking d =>
    some { s with worker := .loading d, log := s.log ++ (d.watermark.map .delivered).toList }
  | .loading d => some { s with worker := if d.ack > 0 ∧ d.ack > s.clientLSN then .storing d else .finishing d }
  | .storing d => some { s with worker := .finishing d, clientLSN := d.ack }
  | .finishing _ => some { s with worker := .idle, outstanding := s.outstanding - 1 }
  | .failed _ => none
  | .returned => none

/-! ## Runs -/

inductive Act (V : Type) where
  | stream (a : StreamAct V)
  | delivery (ok : Bool)

def step (cfg : Config V) (stream : List BackendMessage) (s : Session V) : Act V → Option (Session V)
  | .stream a => streamStep cfg stream s a
  | .delivery ok => deliveryStep s ok

/-- `setupReplication` stores the start position before the loop begins. -/
def start (startLSN : LSN) (decoder : Decoder) : Session V := { clientLSN := startLSN, decoder }

end Gtc.Wal
