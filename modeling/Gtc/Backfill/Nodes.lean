/-
The nodes that share a slot and a state table: the lanes of each, its API
requests, its session, and what the state table holds.

A lane is where `lane` and `backfillTable` are between two critical sections or
database calls; a step is one of them. As in `Process`, the database's answers
are part of the actions: a `SaveState` or a `MarkPending` says whether it took
effect, which is all the rest depends on since its error is only logged. A
crash removes a node and leaves what it wrote; a boot is `Start`.

`began`, `replayAt`, `base`, `selected` and `firsts` are not in the source and
nothing reads them: they remember when a run and a replay began, and what the
state table held when a session came up.
-/
import Gtc.Backfill.Process

namespace Gtc.Backfill

variable {V : Type}

/-! ## Lanes -/

/-- What a run of `backfillTable` does next. -/
inductive RunPoint where
  | primaryKey
  | skip
  | load
  /-- `LoadTableState` has answered, with an error if `none`. -/
  | loaded (answer : Option (Option TableState))
  /-- The table is persisted as done. -/
  | already (ts : TableState)
  /-- `prev := c.state[ref.String()]`. -/
  | resume
  | announce
  | fill
  | waitForStream
  | register
  /-- Inside `startChunk`. -/
  | starting (i : ℕ)
  | abandoning (i : ℕ) (err : String)
  /-- The `select` on the head of the window. -/
  | await
  | record (ts : TableState)
  | save (ts : TableState)
  | saved (ts : TableState)
  | delay
  /-- It returns, and the deferred `abandon` runs. -/
  | leave (err : Option String)
  | returned (err : Option String)
  | failed (err : String)
deriving DecidableEq, Repr

/-- The variables of a run. -/
structure Run where
  ref : TableRef
  point : RunPoint := .primaryKey
  pkCols : List String := []
  cursor : List String := []
  /-- Where the following chunk starts. -/
  next : List String := []
  copied : ℕ := 0
  window : List ℕ := []
  exhausted : Bool := false
  began : Option Began := none
deriving DecidableEq, Repr

inductive Lane where
  | ready
  /-- Blocked on the `wake` channel. -/
  | asleep
  | running (run : Run)
  | stopped
deriving DecidableEq, Repr

/-! ## Requests -/

inductive RequestKind where
  | enqueueTable
  | replayAll
  | enqueueAll
deriving DecidableEq, Repr

/-- A call of `EnqueueTable`, `ReplayAll` or `EnqueueAll` that has chosen its
tables. -/
structure Request where
  kind : RequestKind
  tables : List TableRef
  /-- `MarkPending` has returned. -/
  marked : Bool := false
deriving DecidableEq, Repr

/-! ## Nodes -/

structure Node (V : Type) where
  process : Process V
  lanes : ℕ → Lane
  requests : ℕ → Option Request := fun _ => none
  /-- The context of the lanes is cancelled. -/
  canceled : Bool := false
  /-- The state table when the session came up. -/
  base : StateMap := ∅
  /-- The tables a chunk was selected of since then. -/
  selected : List TableRef := []

/-- The first select of a table in a session: its cursor, and what was
persisted for the table when the session came up. -/
structure FirstSelect where
  table : TableRef
  cursor : List String
  persisted : Option TableState
deriving DecidableEq, Repr

/-- What the nodes share. -/
structure Shared (V : Type) where
  history : History V := {}
  /-- The state table. -/
  store : StateMap := ∅
  /-- The WAL position of the last `MarkPending` of a table. -/
  replayAt : String → ℕ := fun _ => 0
  firsts : List FirstSelect := []

namespace Shared

/-- `SaveState`. -/
def saveState (w : Shared V) (written : Bool) (name : String) (ts : TableState) : Shared V :=
  if written then { w with store := w.store.insert name ts } else w

/-- `MarkPending`. -/
def markPending (w : Shared V) (written : Bool) (names : List String) : Shared V :=
  if written then
    { w with
      store := names.foldl (fun store name => store.insert name {}) w.store
      replayAt := fun name => if name ∈ names then w.history.wal.length else w.replayAt name }
  else w

end Shared

namespace Coordinator

/-- `Start`, for one row of the state table. -/
def startTable (c : Coordinator V) (name : String) : Coordinator V :=
  match splitTableName name, c.state.lookup name with
  | some ref, some ts =>
    if ts.done then
      { c with
        status := c.status.insert name
          { schema := ref.schema, table := ref.table, state := some .done, rowsCopied := ts.rowsCopied } }
    else if c.isExcluded ref ∨ ¬ c.wanted ref then c
    else (c.enqueueLocked ref).setStatus ref fun s => { s with rowsCopied := ts.rowsCopied }
  | _, _ => c

/-- The first critical section of a request: which of the tables it takes. -/
def candidates (c : Coordinator V) (kind : RequestKind) (tables : List TableRef) : List TableRef :=
  tables.filter fun ref => ¬ c.isExcluded ref ∧ c.wanted ref ∧ ¬ c.busy ref ∧
    ¬ (kind = .enqueueAll ∧ ((c.state.lookup ref.string).map (·.done)).getD false)

/-- The second one, for one table. `EnqueueAll` leaves the cached progress. -/
def grantTable (kind : RequestKind) (c : Coordinator V) (ref : TableRef) : Coordinator V :=
  if c.busy ref then c
  else (if kind = .enqueueAll then c else c.forget ref.string).enqueueLocked ref

end Coordinator

/-! ### Runs -/

namespace Run

variable (run : Run)

/-- The answer of `PrimaryKey`. -/
def primaryKey : Except String (List String) → Run
  | .error err => { run with point := .leave (some err) }
  | .ok pkCols => { run with pkCols, point := if pkCols = [] then .skip else .load }

/-- What a run does once it has reloaded the state. -/
def reloaded : Option (Option TableState) → Run
  | some (some ts) => { run with point := if ts.done then .already ts else .resume }
  | _ => { run with point := .resume }

/-- It goes on from the recorded progress. -/
def resume (prev : TableState) : Run :=
  { run with
    cursor := prev.cursor
    copied := if prev.cursor = [] then 0 else prev.rowsCopied
    next := prev.cursor
    window := []
    exhausted := false
    began := if prev.cursor = [] then none else prev.began
    point := .announce }

def fill : Run :=
  { run with point := if ¬ run.exhausted ∧ run.window.length < pipelineDepth then .waitForStream else .await }

/-- `startChunk` returned a chunk. -/
def started (chunkSize : ℕ) (i : ℕ) (ch : ChunkInFlight V) : Run :=
  { run with
    window := run.window ++ [i]
    next := ch.lastCursor
    exhausted := run.exhausted || decide (ch.rowCount < chunkSize)
    point := .fill }

def restart : Run := { run with window := [], next := run.cursor, exhausted := false, point := .fill }

/-- The head of the window is delivered: what is to be recorded. -/
def delivered (chunkSize : ℕ) (head : ChunkInFlight V) (window : List ℕ) : Run :=
  let copied := run.copied + head.delivered
  if head.rowCount < chunkSize then
    { run with window, copied, point := .record { done := true, rowsCopied := copied, began := run.began } }
  else
    { run with
      window
      copied
      cursor := head.lastCursor
      point := .record { cursor := head.lastCursor, rowsCopied := copied, began := run.began } }

/-- The first select from an empty cursor is where the run began. -/
def selected (low snapshot : ℕ) : Run :=
  { run with began := if run.next = [] then run.began <|> some ⟨low, snapshot⟩ else run.began }

end Run

/-! ### Steps of a lane -/

inductive LaneAct (V : Type) where
  | pop
  | wake
  | primaryKey (answer : Except String (List String))
  | skip
  | load (ok : Bool)
  | loaded
  | already
  | resume
  | announce
  | fill
  | waitForStream
  | register
  /-- `emitWatermark`, low or high. -/
  | emit (written : Bool) (err : Option String)
  | select (answer : Except String (ℕ × Chunk V))
  | publish
  | started
  | fail
  | restart
  | done
  | record
  | save (written : Bool)
  | saved
  | delay
  /-- `ctx.Done()`. -/
  | cancel
  | leave
  | returned
  | failed

namespace Node

variable (w : Shared V) (node : Node V) (l : ℕ)

def coordinator : Coordinator V := node.process.coordinator

def setLane (lane : Lane) : Node V := { node with lanes := Function.update node.lanes l lane }

def setRun (run : Run) : Node V := node.setLane l (.running run)

/-- A critical section that has nothing to do with chunks. -/
def keep (c : Coordinator V) : Node V := { node with process := { node.process with coordinator := c } }

/-- A step on chunks, of a lane or of the session. -/
def onProcess [ToString V] (a : ProcessAct V) : Option (Shared V × Node V) :=
  (node.process.step w.history a).map fun (history, process) => ({ w with history }, { node with process })

/-- The call the lane is in starts its select. -/
def noteSelect (ref : TableRef) (cursor : List String) : Shared V × Node V :=
  if ref ∈ node.selected then (w, node)
  else
    ({ w with firsts := w.firsts ++ [{ table := ref, cursor, persisted := node.base.lookup ref.string }] },
      { node with selected := ref :: node.selected })

def selectStep [ToString V] (run : Run) (i : ℕ) : Except String (ℕ × Chunk V) → Option (Shared V × Node V)
  | .error err =>
    (node.onProcess w (.select i none)).map fun (w, node) => (w, node.setRun l { run with point := .abandoning i err })
  | .ok (snapshot, chunk) =>
    (node.onProcess w (.select i (some (snapshot, chunk)))).map fun (w, node) =>
      (node.setRun l (run.selected ((node.process.calls i).low.getD 0) snapshot)).noteSelect w run.ref run.next

def emitStep [ToString V] (run : Run) (i : ℕ) (written : Bool) (err : Option String) : Option (Shared V × Node V) :=
  let low := (node.process.calls i).stage = .low
  let a := if low then .emitLow i written err.isNone else .emitHigh i written err.isNone
  (node.onProcess w a).map fun (w, node) =>
    match err with
    | none => (w, node)
    | some err =>
      let err := "emit " ++ (if low then "low" else "high") ++ " watermark: " ++ err
      (w, node.setRun l { run with point := .abandoning i err })

/-- One step of `backfillTable`, or of `lane` after it. -/
def runStep [ToString V] (run : Run) : LaneAct V → Option (Shared V × Node V)
  | .primaryKey answer =>
    if run.point = .primaryKey then some (w, node.setRun l (run.primaryKey answer)) else none
  | .skip =>
    if run.point = .skip then
      let c := node.coordinator.setStatus run.ref fun s => { s with state := some .skipped, error := "no primary key" }
      some (w, (node.keep c).setRun l { run with point := .leave none })
    else none
  | .load ok =>
    if run.point = .load then
      let answer := if ok then some (w.store.lookup run.ref.string) else none
      some (w, node.setRun l { run with point := .loaded answer })
    else none
  | .loaded =>
    match run.point with
    | .loaded answer =>
      let c :=
        match answer with
        | none => node.coordinator
        | some none => node.coordinator.forget run.ref.string
        | some (some ts) => node.coordinator.setState run.ref.string ts
      some (w, (node.keep c).setRun l (run.reloaded answer))
    | _ => none
  | .already =>
    match run.point with
    | .already ts =>
      let c := node.coordinator.setStatus run.ref fun s =>
        { s with state := some .done, rowsCopied := ts.rowsCopied, error := "" }
      some (w, (node.keep c).setRun l { run with point := .leave none })
    | _ => none
  | .resume =>
    if run.point = .resume then
      some (w, node.setRun l (run.resume ((node.coordinator.state.lookup run.ref.string).getD {})))
    else none
  | .announce =>
    if run.point = .announce then
      let c := node.coordinator.setStatus run.ref fun s =>
        { s with state := some .running, rowsCopied := run.copied, error := "" }
      some (w, (node.keep c).setRun l { run with point := .fill })
    else none
  | .fill => if run.point = .fill then some (w, node.setRun l run.fill) else none
  | .waitForStream =>
    if run.point = .waitForStream ∧ node.coordinator.streaming then
      some (w, node.setRun l { run with point := .register })
    else none
  | .register =>
    if run.point = .register then
      (node.onProcess w (.register l run.ref run.pkCols run.next)).map fun (w, node) =>
        (w, node.setRun l { run with point := .starting node.coordinator.chunkSeq })
    else none
  | .emit written err =>
    match run.point with
    | .starting i => node.emitStep w l run i written err
    | _ => none
  | .select answer =>
    match run.point with
    | .starting i => node.selectStep w l run i answer
    | _ => none
  | .publish =>
    match run.point with
    | .starting i => node.onProcess w (.publish i)
    | _ => none
  | .started =>
    match run.point with
    | .starting i =>
      if (node.process.calls i).stage = .returned then
        some (w, node.setRun l (run.started node.coordinator.cfg.chunkSize i (node.process.chunk i)))
      else none
    | _ => none
  | .fail =>
    match run.point with
    | .abandoning i err =>
      (node.onProcess w (.fail i)).map fun (w, node) => (w, node.setRun l { run with point := .leave (some err) })
    | _ => none
  | .restart =>
    match run.point, run.window with
    | .await, head :: _ =>
      if node.coordinator.restarted head then
        (node.onProcess w (.abandon run.window)).map fun (w, node) => (w, node.setRun l run.restart)
      else none
    | _, _ => none
  | .done =>
    match run.point, run.window with
    | .await, head :: window =>
      if (node.process.chunk head).done then
        some (w, node.setRun l (run.delivered node.coordinator.cfg.chunkSize (node.process.chunk head) window))
      else none
    | _, _ => none
  | .record =>
    match run.point with
    | .record ts =>
      some (w, (node.keep (node.coordinator.setState run.ref.string ts)).setRun l { run with point := .save ts })
    | _ => none
  | .save written =>
    match run.point with
    | .save ts => some (w.saveState written run.ref.string ts, node.setRun l { run with point := .saved ts })
    | _ => none
  | .saved =>
    match run.point with
    | .saved ts =>
      if ts.done then
        let c := node.coordinator.setStatus run.ref fun s =>
          { s with state := some .done, rowsCopied := run.copied, error := "" }
        some (w, (node.keep c).setRun l { run with point := .leave none })
      else
        let c := node.coordinator.setStatus run.ref fun s => { s with rowsCopied := run.copied }
        some (w, (node.keep c).setRun l { run with point := if 0 < node.coordinator.cfg.chunkDelay then .delay else .fill })
    | _ => none
  | .delay => if run.point = .delay then some (w, node.setRun l { run with point := .fill }) else none
  | .cancel =>
    if node.canceled ∧ (run.point = .waitForStream ∨ run.point = .await ∨ run.point = .delay) then
      some (w, node.setRun l { run with point := .leave (some "context canceled") })
    else none
  | .leave =>
    match run.point with
    | .leave err =>
      (node.onProcess w (.abandon run.window)).map fun (w, node) => (w, node.setRun l { run with point := .returned err })
    | _ => none
  | .returned =>
    match run.point with
    | .returned err =>
      let node := node.keep { node.coordinator with running := node.coordinator.running.erase run.ref }
      some (w, match err with
        | none => node.setLane l .ready
        | some err => node.setRun l { run with point := .failed err })
    | _ => none
  | .failed =>
    match run.point with
    | .failed err =>
      if node.canceled then some (w, node.setLane l .stopped)
      else
        let c := node.coordinator.setStatus run.ref fun s => { s with state := some .failed, error := err }
        some (w, (node.keep c).setLane l .ready)
    | _ => none
  | .pop | .wake => none

/-- One step of `lane`. -/
def laneStep [ToString V] (a : LaneAct V) : Option (Shared V × Node V) :=
  match node.lanes l, a with
  | .ready, .pop =>
    match node.coordinator.pop with
    | none => some (w, node.setLane l .asleep)
    | some (ref, c) => some (w, (node.keep c).setRun l { ref })
  | .asleep, .wake =>
    if 0 < node.coordinator.wake then
      some (w, (node.keep { node.coordinator with wake := node.coordinator.wake - 1 }).setLane l .ready)
    else none
  | .asleep, .cancel => if node.canceled then some (w, node.setLane l .stopped) else none
  | .running run, a => node.runStep w l run a
  | _, _ => none

end Node

/-! ### Steps of a node -/

/-- The steps of the session. -/
inductive StreamAct where
  | up (pos : ℕ)
  | down
  | take (lsn : String) (now : ℕ)
  | delivered (n : ℕ)

def StreamAct.act : StreamAct → ProcessAct V
  | .up pos => .up pos
  | .down => .down
  | .take lsn now => .take lsn now
  | .delivered n => .delivered n

inductive NodeAct (V : Type) where
  | stream (a : StreamAct)
  | lane (l : ℕ) (a : LaneAct V)
  /-- A request is made; `tables` is what `PublicationTables` returns, or the
  one table. -/
  | request (r : ℕ) (kind : RequestKind) (tables : List TableRef)
  | mark (r : ℕ) (written : Bool)
  | grant (r : ℕ)
  | stop

namespace Node

variable (w : Shared V) (node : Node V)

def setRequest (r : ℕ) (request : Option Request) : Node V :=
  { node with requests := Function.update node.requests r request }

def streamStep [ToString V] : StreamAct → Option (Shared V × Node V)
  | .up pos => (node.onProcess w (.up pos)).map fun (w, node) => (w, { node with base := w.store, selected := [] })
  | a => node.onProcess w a.act

def step [ToString V] : NodeAct V → Option (Shared V × Node V)
  | .stream a => node.streamStep w a
  | .lane l a => node.laneStep w l a
  | .request r kind tables =>
    -- `EnqueueTable` has one table and returns an error if it cannot take it
    if node.requests r = none ∧
        (kind = .enqueueTable → tables.length = 1 ∧ node.coordinator.candidates kind tables ≠ []) then
      some (w, node.setRequest r (some { kind, tables := node.coordinator.candidates kind tables }))
    else none
  | .mark r written =>
    match node.requests r with
    | some request =>
      if request.marked then none
      else some (w.markPending written (request.tables.map TableRef.string), node.setRequest r (some { request with marked := true }))
    | none => none
  | .grant r =>
    match node.requests r with
    | some request =>
      if request.marked then
        some (w, (node.keep (request.tables.foldl (Coordinator.grantTable request.kind) node.coordinator)).setRequest r none)
      else none
    | none => none
  | .stop => some (w, { node with canceled := true })

end Node

/-- `NewCoordinator` and `Start`. `names` is the order the loaded state is
walked in, and `loaded` says whether it could be loaded. -/
def startNode (cfg : Config) (instanceID : String) (store : StateMap) (names : List String) (loaded : Bool) : Node V :=
  let c : Coordinator V := newCoordinator cfg instanceID
  let c := if loaded then names.foldl Coordinator.startTable { c with state := store } else c
  { process := { coordinator := c }, lanes := fun l => if l < c.cfg.lanes then .ready else .stopped }

/-! ## The nodes and the database -/

structure World (N V : Type) where
  shared : Shared V := {}
  nodes : N → Option (Node V) := fun _ => none

inductive WorldAct (N V : Type) where
  | commit (events : List (CDCEvent V))
  | foreign (content : Option WatermarkPayload)
  | boot (n : N) (cfg : Config) (instanceID : String) (names : List String) (loaded : Bool)
  | crash (n : N)
  | node (n : N) (a : NodeAct V)

namespace World

variable {N : Type} [DecidableEq N]

def setNode (w : World N V) (n : N) (node : Option (Node V)) : World N V :=
  { w with nodes := Function.update w.nodes n node }

def onHistory (w : World N V) (history : History V) : World N V := { w with shared := { w.shared with history } }

def step [ToString V] (w : World N V) : WorldAct N V → Option (World N V)
  | .commit events => some (w.onHistory (w.shared.history.commit events))
  | .foreign content => some (w.onHistory (w.shared.history.foreign content))
  | .boot n cfg instanceID names loaded =>
    if (w.nodes n).isNone ∧ names.Perm w.shared.store.keys then
      some (w.setNode n (some (startNode cfg instanceID w.shared.store names loaded)))
    else none
  | .crash n => some (w.setNode n none)
  | .node n a => do
    let node ← w.nodes n
    let (shared, node) ← node.step w.shared a
    return { shared, nodes := Function.update w.nodes n (some node) }

end World

end Gtc.Backfill
