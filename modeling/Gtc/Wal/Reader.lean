/-
`Reader.Start` over its whole life: connections one after the other, each set
up where the replication slot stands and streamed until it ends, with a wait
before the next; and several such readers, in processes that crash and start
again, on one slot.

The database's side is the publication, the slot and its confirmed position.
A report reaches the slot in a step of its own, or never; the slot takes any
position that was reported, so that a server that lets it move backwards is
covered too. A handler call is recorded with whatever evidence `H` of it the
caller of the reader keeps.
-/
import Gtc.Wal.GapFree

namespace Gtc.Wal

open Lib

variable {N V H : Type}

/-! ## Positions as text -/

/-- `pglogrepl.ParseLSN`: two hexadecimal numbers and the slash between them. -/
def parseLSN (s : String) : Option LSN :=
  match s.toList.splitOn '/' with
  | [high, low] => do return (← readHex high) * 0x100000000 + (← readHex low)
  | _ => none

theorem parseLSN_string (lsn : LSN) : parseLSN lsn.string = some lsn := by
  have hslash : ∀ n : ℕ, '/' ∉ hexDigits n := notMem_hexDigits (by decide)
  have hsplit : lsn.string.toList.splitOn '/' = [hexDigits (lsn / 0x100000000), hexDigits (lsn % 0x100000000)] := by
    rw [LSN.toList_string, List.splitOn_append_cons_self, List.splitOn_eq_singleton (hslash _),
      List.splitOn_eq_singleton (hslash _)]
    rfl
  simp only [parseLSN, hsplit, readHex_hexDigits]
  exact congrArg some (Nat.div_add_mod' lsn 0x100000000)

/-! ## One connection -/

/-- A handler call that has returned. -/
structure HandlerCall (V H : Type) where
  events : List (CDCEvent V)
  evidence : H
  /-- It returned nil. -/
  ok : Bool

structure Connection (V H : Type) where
  /-- Where the server started to send. -/
  served : LSN
  /-- What the server sends as long as it is listened to. -/
  stream : List Sent
  session : Session V
  calls : List (HandlerCall V H) := []

inductive ConnAct (V H : Type) where
  | stream (a : StreamAct V)
  /-- A step of the delivery goroutine that is no return of the handler. -/
  | delivery
  | handler (evidence : H) (ok : Bool)

/-- What the handler is working on. -/
def Worker.handling? : Worker V → Option (Delivery V)
  | .handling d => some d
  | _ => none

def Connection.step (cfg : Config V) (c : Connection V H) : ConnAct V H → Option (Connection V H)
  | .stream a => (streamStep cfg (c.stream.map (·.msg)) c.session a).map fun session => { c with session }
  | .delivery =>
    match c.session.worker.handling? with
    | some _ => none
    | none => (deliveryStep c.session true).map fun session => { c with session }
  | .handler evidence ok =>
    match c.session.worker.handling? with
    | some d => (deliveryStep c.session ok).map fun session =>
        { c with session, calls := c.calls ++ [⟨d.events.map (·.event), evidence, ok⟩] }
    | none => none

/-! ## `Start` -/

structure ReaderConfig (V : Type) where
  session : Config V
  reconnectBackoff : ℕ := 0
  maxReconnectBackoff : ℕ := 0
  autoCreateSlot : Bool := true
  autoCreatePub : Bool := true

namespace ReaderConfig

variable (cfg : ReaderConfig V)

/-- In milliseconds; zero stands for a second. -/
def initialBackoff : ℕ := if cfg.reconnectBackoff = 0 then 1000 else cfg.reconnectBackoff

/-- In milliseconds; zero stands for half a minute. -/
def maxBackoff : ℕ := if cfg.maxReconnectBackoff = 0 then 30000 else cfg.maxReconnectBackoff

end ReaderConfig

/-- Where `Start` and the `setupReplication` it calls are. -/
inductive ReaderPoint (V H : Type) where
  | check
  | connected
  | identified
  | published
  /-- `startReplicationWithRetry`. -/
  | slotKnown (startLSN : LSN)
  | streaming (c : Connection V H)
  /-- `waitWithBackoff`. -/
  | waiting
  | returned

structure Reader (V H : Type) where
  point : ReaderPoint V H := .check
  decoder : Decoder := newDecoder
  slotCreated : Bool := false
  backoff : ℕ
  /-- Failed attempts since the stream last started; nothing reads it. -/
  failures : ℕ := 0
  /-- Every wait so far, with the number of failures before it. -/
  waits : List (ℕ × ℕ) := []

/-- `NewReader`, with `Start` called. -/
def newReader (cfg : ReaderConfig V) : Reader V H := { backoff := cfg.initialBackoff }

inductive ReaderAct (V H : Type) where
  /-- The context is done, or `Stop` was called. -/
  | stop
  | connect (ok : Bool)
  /-- `IdentifySystem`. -/
  | identify (ok : Bool)
  | ensurePublication (queried created : Bool)
  /-- The slot's consistent point, when one is created. -/
  | ensureReplicationSlot (queried : Bool) (created : Option LSN)
  | startReplication (stream : List Sent)
  /-- The slot is busy: another attempt. -/
  | busy
  | refused
  | conn (a : ConnAct V H)
  /-- `streamLoop` has returned; `again` unless by a shutdown. -/
  | ended (again : Bool)
  | waited

namespace Reader

variable (cfg : ReaderConfig V) (r : Reader V H)

/-- An attempt has failed: wait, and twice as long the next time. -/
def fail : Reader V H :=
  { r with point := .waiting, waits := r.waits ++ [(r.failures, r.backoff)], failures := r.failures + 1,
           backoff := min (r.backoff * 2) cfg.maxBackoff }

def goTo (point : ReaderPoint V H) : Reader V H := { r with point }

/-- Go on, or count a failure. -/
def next (ok : Bool) (point : ReaderPoint V H) : Reader V H := if ok then r.goTo point else r.fail cfg

/-- The slot's position as the server writes it, parsed. -/
def readSlot (lsn : LSN) : Reader V H :=
  match parseLSN lsn.string with
  | some startLSN => r.goTo (.slotKnown startLSN)
  | none => r.fail cfg

/-- Replication has started: the backoff starts over. -/
def stream (c : Connection V H) : Reader V H :=
  { r with point := .streaming c, backoff := cfg.initialBackoff, failures := 0 }

/-- The connection is over; the decoder stays. -/
def leave (c : Connection V H) (again : Bool) : Reader V H :=
  if again then ({ r with decoder := c.session.decoder } : Reader V H).fail cfg
  else { r with decoder := c.session.decoder, point := .returned }

end Reader

/-! ## Readers on one slot -/

structure Cluster (N V H : Type) where
  publication : Bool := false
  /-- `confirmed_flush_lsn`. -/
  slot : Option LSN := none
  readers : N → Option (Reader V H) := fun _ => none
  /-- The connections that are over. -/
  past : List (Connection V H) := []
  /-- Where the slot began; nothing reads it. -/
  origin : Option LSN := none

inductive ClusterAct (N V H : Type) where
  | boot (n : N)
  | crash (n : N)
  | reader (n : N) (a : ReaderAct V H)
  /-- A report of the reader's connection reaches the server. -/
  | report (n : N) (lsn : LSN)
  /-- A report of a connection that is over does. -/
  | lateReport (lsn : LSN)

def Reader.connection? (r : Reader V H) : Option (Connection V H) :=
  match r.point with
  | .streaming c => some c
  | _ => none

namespace Cluster

section Step

variable [DecidableEq N] (cfg : ReaderConfig V) (w : Cluster N V H)

def setReader (n : N) (r : Option (Reader V H)) : Cluster N V H :=
  { w with readers := Function.update w.readers n r }

def ensurePublication (n : N) (r : Reader V H) (queried created : Bool) : Cluster N V H :=
  if !queried then w.setReader n (r.fail cfg)
  else if w.publication then w.setReader n (r.goTo .published)
  else if !cfg.autoCreatePub then w.setReader n (r.fail cfg)
  else if created then { w with publication := true }.setReader n (r.goTo .published)
  else w.setReader n (r.fail cfg)

def ensureReplicationSlot (n : N) (r : Reader V H) (queried : Bool) (created : Option LSN) : Cluster N V H :=
  if !queried then w.setReader n (r.fail cfg)
  else
    match w.slot with
    | some lsn => w.setReader n (r.readSlot cfg lsn)
    | none =>
      if !cfg.autoCreateSlot then w.setReader n (r.fail cfg)
      else
        match created with
        | none => w.setReader n (r.fail cfg)
        | some lsn =>
          { w with slot := some lsn, origin := some lsn }.setReader n ({ r with slotCreated := true }.readSlot cfg lsn)

/-- The server starts no earlier than where the slot stands. -/
def startReplication (n : N) (r : Reader V H) (startLSN : LSN) (stream : List Sent) : Cluster N V H :=
  w.setReader n (r.stream cfg { served := max startLSN (w.slot.getD 0), stream, session := start startLSN r.decoder })

/-- The reader leaves its connection. -/
def leave (n : N) (r : Option (Reader V H)) (c : Connection V H) : Cluster N V H :=
  { w with past := w.past ++ [c] }.setReader n r

def readerStep (n : N) (r : Reader V H) : ReaderPoint V H → ReaderAct V H → Option (Cluster N V H)
  | .check, .stop => some (w.setReader n (r.goTo .returned))
  | .check, .connect ok => some (w.setReader n (r.next cfg ok .connected))
  | .connected, .identify ok => some (w.setReader n (r.next cfg ok .identified))
  | .identified, .ensurePublication queried created => some (w.ensurePublication cfg n r queried created)
  | .published, .ensureReplicationSlot queried created => some (w.ensureReplicationSlot cfg n r queried created)
  | .slotKnown startLSN, .startReplication stream => some (w.startReplication cfg n r startLSN stream)
  | .slotKnown _, .busy => some w
  | .slotKnown _, .refused => some (w.setReader n (r.fail cfg))
  | .streaming c, .conn a => (c.step cfg.session a).map fun c' => w.setReader n (r.goTo (.streaming c'))
  | .streaming c, .ended again =>
    if c.session.phase = .returned then some (w.leave n (r.leave cfg c again) c) else none
  | .waiting, .waited => some (w.setReader n (r.goTo .check))
  | _, _ => none

def step : ClusterAct N V H → Option (Cluster N V H)
  | .boot n => if (w.readers n).isNone then some (w.setReader n (some (newReader cfg))) else none
  | .crash n => do
    let r ← w.readers n
    match r.connection? with
    | some c => some (w.leave n none c)
    | none => some (w.setReader n none)
  | .reader n a => do
    let r ← w.readers n
    w.readerStep cfg n r r.point a
  | .report n lsn => do
    let r ← w.readers n
    let c ← r.connection?
    if lsn ∈ reports c.session.log then some { w with slot := some lsn } else none
  | .lateReport lsn => if w.past.any (lsn ∈ reports ·.session.log) then some { w with slot := some lsn } else none

end Step

end Cluster

end Gtc.Wal
