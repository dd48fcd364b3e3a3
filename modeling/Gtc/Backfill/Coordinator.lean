/-
`backfill.Coordinator`: the chunks in flight and what the stream and the lanes
do to them, the queue of tables, and the progress recorded for each.

Every definition here is one critical section of the source, or a helper of
one. A `*chunkInFlight` is the chunk's sequence number and `chunks` is what the
pointers point to; `inflight` holds the numbers of the chunks in the map of
that name, in the order the map is walked. A closed `done` is `true`, and a
`restart` channel is its generation: it is closed once the coordinator has
moved on to the next. Times are left out, and so is the log.
-/
import Mathlib.Data.List.AList
import Gtc.Domain

namespace Gtc.Backfill

variable {V : Type}

/-! ## Tables -/

/-- `tableRef`. -/
structure TableRef where
  schema : String
  table : String
deriving DecidableEq, Repr

def TableRef.string (ref : TableRef) : String := ref.schema ++ "." ++ ref.table

/-- `splitTableName`: at the first dot. -/
def splitTableName (name : String) : Option TableRef :=
  match name.toList.dropWhile (· ≠ '.') with
  | [] => none
  | _ :: table => some ⟨String.ofList (name.toList.takeWhile (· ≠ '.')), String.ofList table⟩

def eventRef (event : CDCEvent V) : TableRef := ⟨event.schema, event.table⟩

/-- Where a run began: the WAL positions of the low watermark and of the
snapshot of the first chunk it selected, the one from an empty cursor. -/
structure Began where
  low : ℕ
  snapshot : ℕ
deriving DecidableEq, Repr

structure TableState where
  cursor : List String := []
  done : Bool := false
  rowsCopied : ℕ := 0
  /-- Not in the source, and nothing reads it: the run that made the progress. -/
  began : Option Began := none
deriving DecidableEq, Repr

/-- `map[string]TableState`, and the state table. -/
abbrev StateMap := AList fun _ : String => TableState

inductive BackfillState where
  | pending
  | running
  | done
  | skipped
  | failed
deriving DecidableEq, Repr

structure BackfillTableStatus where
  schema : String
  table : String
  /-- `none` for the empty string. -/
  state : Option BackfillState := none
  rowsCopied : ℕ := 0
  error : String := ""
deriving DecidableEq, Repr

/-! ## Rows and chunks -/

structure Row (V : Type) where
  key : String
  values : Data V
deriving DecidableEq, Repr

/-- `Chunk`: the result of one select. -/
structure Chunk (V : Type) where
  rows : List (Row V)
  lastCursor : List String
deriving DecidableEq, Repr

structure ChunkInFlight (V : Type) where
  table : TableRef
  id : String
  collecting : Bool := false
  /-- Keys observed on the stream after the low watermark. -/
  seen : List String := []
  pending : List (Row V) := []
  pkCols : List String
  rowCount : ℕ := 0
  lastCursor : List String := []
  /-- Rows emitted at the high watermark. -/
  delivered : ℕ := 0
  done : Bool := false
  restart : ℕ
deriving DecidableEq, Repr

structure WatermarkPayload where
  slot : String
  chunk : String
  mark : String
deriving DecidableEq, Repr

/-- `fmt.Sprintf("%v", val)`. -/
def sprint [ToString V] : Option V → String
  | none => "<nil>"
  | some v => toString v

/-- `pkKeyFromData`; `pkCols` is never empty. -/
def pkKeyFromData [ToString V] (data : Data V) (pkCols : List String) : Option String := do
  let parts ← pkCols.mapM fun col => (data.lookup col).map sprint
  return String.intercalate "\x1f" parts

/-- The key of a row that may be missing. -/
def rowKey [ToString V] (pkCols : List String) (data : Option (Data V)) : Option String :=
  data.bind (pkKeyFromData · pkCols)

/-- The key `ObserveEvent` takes from an event: that of the old row for a
delete, else that of the new one. -/
def observedKey [ToString V] (pkCols : List String) (event : CDCEvent V) : Option String :=
  rowKey pkCols (if event.operation = .delete then event.oldData else event.newData)

def chunkID (instanceID : String) (ref : TableRef) (seq : ℕ) : String :=
  instanceID ++ "-" ++ ref.string ++ "-" ++ toString seq

/-- The READ event of a row. -/
def readEvent (lsn : String) (now : ℕ) (id : String) (ref : TableRef) (row : Row V) : CDCEvent V :=
  { id := "bf:" ++ id ++ ":" ++ row.key
    operation := .read
    schema := ref.schema
    table := ref.table
    oldData := none
    newData := some row.values
    unchangedToastColumns := []
    metadata := { lsn, transactionID := 0, timestamp := now } }

/-! ## The coordinator -/

structure Config where
  slotName : String
  chunkSize : ℕ
  chunkDelay : ℕ := 0
  lanes : ℕ
  excludedTables : List String := []
  /-- Always true for a nil `Wanted`. -/
  wanted : TableRef → Bool := fun _ => true

def defaultChunkSize : ℕ := 5000

def defaultLanes : ℕ := 4

/-- How many chunks of one table may be in flight. -/
def pipelineDepth : ℕ := 2

structure Coordinator (V : Type) where
  cfg : Config
  queue : List TableRef := []
  running : List TableRef := []
  state : StateMap := ∅
  status : AList fun _ : String => BackfillTableStatus := ∅
  inflight : List ℕ := []
  chunks : ℕ → ChunkInFlight V
  /-- Tokens in the `wake` channel. -/
  wake : ℕ := 0
  chunkSeq : ℕ := 0
  streaming : Bool := false
  restart : ℕ := 0
  instanceID : String

/-- `NewCoordinator`. -/
def newCoordinator (cfg : Config) (instanceID : String) : Coordinator V :=
  { cfg := { cfg with chunkSize := if cfg.chunkSize = 0 then defaultChunkSize else cfg.chunkSize
                      lanes := if cfg.lanes = 0 then defaultLanes else cfg.lanes }
    chunks := fun _ => { table := ⟨"", ""⟩, id := "", pkCols := [], restart := 0 }
    instanceID }

namespace Coordinator

/-! ### The chunks in flight -/

/-- `c.inflight[id]`. -/
def lookup (c : Coordinator V) (id : String) : Option ℕ := c.inflight.find? fun i => (c.chunks i).id = id

/-- `delete(c.inflight, id)`. -/
def delete (c : Coordinator V) (id : String) : Coordinator V :=
  { c with inflight := c.inflight.filter fun i => (c.chunks i).id ≠ id }

def setChunk (c : Coordinator V) (i : ℕ) (ch : ChunkInFlight V) : Coordinator V :=
  { c with chunks := Function.update c.chunks i ch }

/-- The loop of `ObserveEvent`. The key is taken with the columns of the first
chunk that needs it; the chunks of one table have the same. -/
def observe [ToString V] (event : CDCEvent V) : Option String → List ℕ → (ℕ → ChunkInFlight V) → ℕ → ChunkInFlight V
  | _, [], chunks => chunks
  | key, i :: is, chunks =>
    let ch := chunks i
    if ¬ ch.collecting ∨ event.schema ≠ ch.table.schema ∨ event.table ≠ ch.table.table then observe event key is chunks
    else
      match key <|> observedKey ch.pkCols event with
      | none => chunks
      | some key => observe event (some key) is (Function.update chunks i { ch with seen := ch.seen.insert key })

def observeEvent [ToString V] (c : Coordinator V) (event : CDCEvent V) : Coordinator V :=
  { c with chunks := observe event none c.inflight c.chunks }

/-- The rows of a chunk that no live event has superseded. -/
def unseen (ch : ChunkInFlight V) : List (Row V) := ch.pending.filter fun row => row.key ∉ ch.seen

/-- `HandleWatermark`; `content` is what it unmarshals to. -/
def handleWatermark (c : Coordinator V) (lsn : String) (now : ℕ) (content : Option WatermarkPayload) :
    List (CDCEvent V) × Coordinator V :=
  match content with
  | none => ([], c)
  | some payload =>
    if payload.slot ≠ c.cfg.slotName then ([], c)
    else
      match c.lookup payload.chunk with
      -- another node's chunk, or an abandoned attempt
      | none => ([], c)
      | some i =>
        let ch := c.chunks i
        if payload.mark = "low" then ([], c.setChunk i { ch with collecting := true })
        else if payload.mark = "high" then
          let events := (unseen ch).map (readEvent lsn now ch.id ch.table)
          (events, c.setChunk i { ch with collecting := false, delivered := events.length, pending := [] })
        else ([], c)

/-- Removes a chunk from the map and closes its `done`. -/
def finishChunk (c : Coordinator V) (i : ℕ) : Coordinator V :=
  (c.delete (c.chunks i).id).setChunk i { c.chunks i with done := true }

/-- `WatermarkDelivered`; it does not look at the slot. -/
def watermarkDelivered (c : Coordinator V) (content : Option WatermarkPayload) : Coordinator V :=
  match content with
  | none => c
  | some payload =>
    if payload.mark ≠ "high" then c
    else
      match c.lookup payload.chunk with
      | none => c
      | some i => c.finishChunk i

def restartLocked (c : Coordinator V) : Coordinator V := { c with inflight := [], restart := c.restart + 1 }

def onStreamStart (c : Coordinator V) : Coordinator V :=
  let c := { c with streaming := true }
  if c.inflight = [] then c else c.restartLocked

def onStreamStop (c : Coordinator V) : Coordinator V :=
  let c := { c with streaming := false }
  if c.inflight = [] then c else c.restartLocked

/-- `startChunk`: the chunk enters the map, under the next sequence number. -/
def register (c : Coordinator V) (ref : TableRef) (pkCols : List String) : Coordinator V :=
  let seq := c.chunkSeq + 1
  { c with
    chunkSeq := seq
    inflight := c.inflight ++ [seq]
    chunks := Function.update c.chunks seq
      { table := ref, id := chunkID c.instanceID ref seq, pkCols, restart := c.restart } }

/-- `startChunk`: what the select returned; an empty chunk completes at once. -/
def publish (c : Coordinator V) (i : ℕ) (selected : Chunk V) : Coordinator V :=
  let c := c.setChunk i { c.chunks i with
    pending := selected.rows, rowCount := selected.rows.length, lastCursor := selected.lastCursor }
  if selected.rows.length = 0 then c.finishChunk i else c

/-- `abandon`. -/
def abandon (c : Coordinator V) (chunks : List ℕ) : Coordinator V :=
  chunks.foldl (fun c i => c.delete (c.chunks i).id) c

/-- `head.restart` is closed. -/
def restarted (c : Coordinator V) (i : ℕ) : Bool := (c.chunks i).restart < c.restart

/-! ### The queue -/

def isExcluded (c : Coordinator V) (ref : TableRef) : Bool :=
  c.cfg.excludedTables.contains ref.string || c.cfg.excludedTables.contains ref.table

def wanted (c : Coordinator V) (ref : TableRef) : Bool := c.cfg.wanted ref

/-- `busyLocked`. -/
def busy (c : Coordinator V) (ref : TableRef) : Bool := c.running.contains ref || c.queue.contains ref

def setStatus (c : Coordinator V) (ref : TableRef) (update : BackfillTableStatus → BackfillTableStatus) :
    Coordinator V :=
  let s := (c.status.lookup ref.string).getD { schema := ref.schema, table := ref.table }
  { c with status := c.status.insert ref.string (update s) }

/-- `signal(c.wake)`: a send that does not block. -/
def signal (c : Coordinator V) : Coordinator V := { c with wake := min (c.wake + 1) c.cfg.lanes }

def enqueueLocked (c : Coordinator V) (ref : TableRef) : Coordinator V :=
  let c := { c with queue := c.queue ++ [ref] }
  let c :=
    if (c.status.lookup ref.string).bind (·.state) = some .running then c
    else
      { c with
        status := c.status.insert ref.string { schema := ref.schema, table := ref.table, state := some .pending } }
  c.signal

def pop (c : Coordinator V) : Option (TableRef × Coordinator V) :=
  match c.queue with
  | [] => none
  | ref :: queue => some (ref, { c with queue, running := c.running.insert ref })

/-- `c.state[name] = ts`. -/
def setState (c : Coordinator V) (name : String) (ts : TableState) : Coordinator V :=
  { c with state := c.state.insert name ts }

/-- `delete(c.state, name)`. -/
def forget (c : Coordinator V) (name : String) : Coordinator V := { c with state := c.state.erase name }

end Coordinator

/-! ## A table -/

def users : TableRef := ⟨"public", "users"⟩

/-- The row with id 1. -/
def firstUser : Row ℕ := { key := "1", values := [("id", some 1)] }

def userEvent (operation : Operation) (oldData newData : Option (Data ℕ)) : CDCEvent ℕ :=
  { (bareEvent "0/20" : CDCEvent ℕ) with operation, oldData, newData }

end Gtc.Backfill
