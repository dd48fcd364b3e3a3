/-
One GTC process at work on chunks: the `startChunk` calls of its lanes, and the
streaming session that sees their watermarks come back.

A step is one critical section of the coordinator, or one call to the
database. The database decides whether a watermark is written and what a select
returns, so each answer is part of the action. A session goes through the log
entry by entry, in the order of `streamLoop`: an event is observed and then
emitted, a watermark is handled and the rows it returns are emitted.

A call keeps the WAL positions of its watermarks and of its snapshot, and what
was emitted for it; a `Report` is kept of every chunk that was reported
delivered. Nothing reads them.
-/
import Gtc.Backfill.CoordinatorFacts
import Gtc.Backfill.Source

namespace Gtc.Backfill

variable {V : Type}

/-! ## Calls and sessions -/

/-- What a call of `startChunk` does next. -/
inductive Stage where
  | low
  | select
  | publish
  | high
  /-- It returned its chunk. -/
  | returned
  /-- It failed, and abandons its chunk. -/
  | abandon
  | failed
deriving DecidableEq, Repr

structure Call (V : Type) where
  /-- The lane that made the call. -/
  lane : ℕ := 0
  cursor : List String := []
  stage : Stage := .low
  low : Option ℕ := none
  /-- The snapshot, and what the select returned. -/
  selection : Option (ℕ × Chunk V) := none
  high : Option ℕ := none
  /-- What `HandleWatermark` returned for the high watermark. -/
  read : Option (List (CDCEvent V)) := none

structure Stream (V : Type) where
  /-- Log entries taken. -/
  pos : ℕ
  emitted : List (CDCEvent V) := []
  /-- Watermarks handled and not reported delivered yet. -/
  waiting : List (Option WatermarkPayload) := []

structure Report (V : Type) where
  table : TableRef
  low : ℕ
  read : List (CDCEvent V)

structure Process (V : Type) where
  coordinator : Coordinator V
  calls : ℕ → Call V := fun _ => { stage := .failed }
  stream : Option (Stream V) := none

/-- What a process shares with the rest of the world: the log, and what was
delivered. -/
structure History (V : Type) where
  wal : List (Item V) := []
  reports : List (Report V) := []

def newProcess (cfg : Config) (instanceID : String) : Process V := { coordinator := newCoordinator cfg instanceID }

namespace Process

variable (h : History V) (p : Process V)

def chunk (i : ℕ) : ChunkInFlight V := p.coordinator.chunks i

def setCall (i : ℕ) (call : Call V) : Process V := { p with calls := Function.update p.calls i call }

/-- `emitWatermark`: the payload in the log, if the database wrote it. -/
def watermark (i : ℕ) (mark : String) : WatermarkPayload :=
  { slot := p.coordinator.cfg.slotName, chunk := (p.chunk i).id, mark }

def write (written : Bool) (payload : WatermarkPayload) : History V :=
  if written then { h with wal := h.wal ++ [.mark (some payload)] } else h

/-- The position a watermark is written at. -/
def writtenAt (written : Bool) : Option ℕ := if written then some h.wal.length else none

/-! ## `startChunk` -/

def register (lane : ℕ) (ref : TableRef) (pkCols cursor : List String) : Process V :=
  let coordinator := p.coordinator.register ref pkCols
  { p with coordinator, calls := Function.update p.calls coordinator.chunkSeq { lane, cursor } }

def emitLow (i : ℕ) (written ok : Bool) : Process V :=
  p.setCall i { p.calls i with low := writtenAt h written, stage := if ok then .select else .abandon }

def select (i : ℕ) : Option (ℕ × Chunk V) → Process V
  | none => p.setCall i { p.calls i with stage := .abandon }
  | some selection => p.setCall i { p.calls i with selection := some selection, stage := .publish }

def publish (i : ℕ) (selected : Chunk V) : Process V :=
  Process.setCall { p with coordinator := p.coordinator.publish i selected } i
    { p.calls i with stage := if selected.rows.length = 0 then .returned else .high }

def emitHigh (i : ℕ) (written ok : Bool) : Process V :=
  p.setCall i { p.calls i with high := writtenAt h written, stage := if ok then .returned else .abandon }

/-- The call gives up its chunk. -/
def fail (i : ℕ) : Process V :=
  Process.setCall { p with coordinator := p.coordinator.abandon [i] } i { p.calls i with stage := .failed }

/-! ## The session -/

/-- The chunk a high watermark belongs to. -/
def highChunk (content : Option WatermarkPayload) : Option ℕ :=
  content.bind fun payload => if payload.mark = "high" then p.coordinator.lookup payload.chunk else none

def handleWatermark (s : Stream V) (lsn : String) (now : ℕ) (content : Option WatermarkPayload) : Process V :=
  let (events, coordinator) := p.coordinator.handleWatermark lsn now content
  { coordinator
    calls :=
      match p.highChunk content with
      | some i => Function.update p.calls i { p.calls i with read := some events }
      | none => p.calls
    stream := some { pos := s.pos + 1, emitted := s.emitted ++ events, waiting := s.waiting ++ [content] } }

/-- The loop body of `streamLoop` for one log entry. -/
def take [ToString V] (s : Stream V) (lsn : String) (now : ℕ) : Item V → Process V
  | .change event =>
    { p with
      coordinator := p.coordinator.observeEvent event
      stream := some { s with pos := s.pos + 1, emitted := s.emitted ++ [event] } }
  | .commit => { p with stream := some { s with pos := s.pos + 1 } }
  | .mark content => p.handleWatermark s lsn now content

/-- The delivery goroutine reports the watermark at `n`. -/
def delivered (s : Stream V) (n : ℕ) (content : Option WatermarkPayload) : Process V :=
  { p with
    coordinator := p.coordinator.watermarkDelivered content
    stream := some { s with waiting := s.waiting.eraseIdx n } }

def report (content : Option WatermarkPayload) : History V :=
  match p.highChunk content with
  | some i =>
    { h with
      reports := h.reports ++
        [{ table := (p.chunk i).table, low := (p.calls i).low.getD 0, read := (p.calls i).read.getD [] }] }
  | none => h

end Process

/-! ## Steps -/

inductive ProcessAct (V : Type) where
  | register (lane : ℕ) (ref : TableRef) (pkCols cursor : List String)
  | emitLow (i : ℕ) (written ok : Bool)
  /-- The select's snapshot and rows, or an error. -/
  | select (i : ℕ) (answer : Option (ℕ × Chunk V))
  | publish (i : ℕ)
  | emitHigh (i : ℕ) (written ok : Bool)
  | fail (i : ℕ)
  | abandon (chunks : List ℕ)
  /-- A session starts, at a position of the log. -/
  | up (pos : ℕ)
  | down
  | take (lsn : String) (now : ℕ)
  | delivered (n : ℕ)

namespace Process

def step [ToString V] (h : History V) (p : Process V) : ProcessAct V → Option (History V × Process V)
  | .register lane ref pkCols cursor => some (h, p.register lane ref pkCols cursor)
  | .emitLow i written ok =>
    if (p.calls i).stage = .low ∧ (ok → written) then
      some (write h written (p.watermark i "low"), p.emitLow h i written ok)
    else none
  | .select i answer => if (p.calls i).stage = .select then some (h, p.select i answer) else none
  | .publish i =>
    match (p.calls i).stage, (p.calls i).selection with
    | .publish, some (_, selected) => some (h, p.publish i selected)
    | _, _ => none
  | .emitHigh i written ok =>
    if (p.calls i).stage = .high ∧ (ok → written) then
      some (write h written (p.watermark i "high"), p.emitHigh h i written ok)
    else none
  | .fail i => if (p.calls i).stage = .abandon then some (h, p.fail i) else none
  | .abandon chunks => some (h, { p with coordinator := p.coordinator.abandon chunks })
  | .up pos =>
    if p.stream.isNone ∧ pos ≤ h.wal.length then
      some (h, { p with coordinator := p.coordinator.onStreamStart, stream := some { pos } })
    else none
  | .down =>
    if p.stream.isSome then some (h, { p with coordinator := p.coordinator.onStreamStop, stream := none }) else none
  | .take lsn now => do
    let s ← p.stream
    let item ← h.wal[s.pos]?
    return (h, p.take s lsn now item)
  | .delivered n => do
    let s ← p.stream
    let content ← s.waiting[n]?
    return (p.report h content, p.delivered s n content)

/-- The steps, with what makes each possible. -/
inductive Steps [ToString V] (h : History V) (p : Process V) : ProcessAct V → History V → Process V → Prop
  | register {lane : ℕ} {ref : TableRef} {pkCols cursor : List String} :
    Steps h p (.register lane ref pkCols cursor) h (p.register lane ref pkCols cursor)
  | emitLow {i : ℕ} {written ok : Bool} (hstage : (p.calls i).stage = .low) :
    Steps h p (.emitLow i written ok) (write h written (p.watermark i "low")) (p.emitLow h i written ok)
  | select {i : ℕ} {answer : Option (ℕ × Chunk V)} (hstage : (p.calls i).stage = .select) :
    Steps h p (.select i answer) h (p.select i answer)
  | publish {i s : ℕ} {selected : Chunk V} (hstage : (p.calls i).stage = .publish)
    (hsel : (p.calls i).selection = some (s, selected)) : Steps h p (.publish i) h (p.publish i selected)
  | emitHigh {i : ℕ} {written ok : Bool} (hstage : (p.calls i).stage = .high) :
    Steps h p (.emitHigh i written ok) (write h written (p.watermark i "high")) (p.emitHigh h i written ok)
  | fail {i : ℕ} (hstage : (p.calls i).stage = .abandon) : Steps h p (.fail i) h (p.fail i)
  | abandon {chunks : List ℕ} : Steps h p (.abandon chunks) h { p with coordinator := p.coordinator.abandon chunks }
  | up {pos : ℕ} (hpos : pos ≤ h.wal.length) :
    Steps h p (.up pos) h { p with coordinator := p.coordinator.onStreamStart, stream := some { pos } }
  | down : Steps h p .down h { p with coordinator := p.coordinator.onStreamStop, stream := none }
  | take {lsn : String} {now : ℕ} {s : Stream V} {item : Item V} (hstream : p.stream = some s)
    (hitem : h.wal[s.pos]? = some item) : Steps h p (.take lsn now) h (p.take s lsn now item)
  | delivered {n : ℕ} {s : Stream V} {content : Option WatermarkPayload} (hstream : p.stream = some s)
    (hcontent : s.waiting[n]? = some content) : Steps h p (.delivered n) (p.report h content) (p.delivered s n content)

theorem steps_of_step [ToString V] {h h' : History V} {p p' : Process V} {a : ProcessAct V}
    (hstep : p.step h a = some (h', p')) : Steps h p a h' p' := by
  cases a with
  | register lane ref pkCols cursor =>
    cases hstep
    exact .register
  | emitLow i written ok =>
    simp only [step, Option.ite_none_right_eq_some] at hstep
    cases hstep.2
    exact .emitLow hstep.1.1
  | select i answer =>
    simp only [step, Option.ite_none_right_eq_some] at hstep
    cases hstep.2
    exact .select hstep.1
  | publish i =>
    simp only [step] at hstep
    split at hstep
    · rename_i hstage hsel
      cases hstep
      exact .publish hstage hsel
    · cases hstep
  | emitHigh i written ok =>
    simp only [step, Option.ite_none_right_eq_some] at hstep
    cases hstep.2
    exact .emitHigh hstep.1.1
  | fail i =>
    simp only [step, Option.ite_none_right_eq_some] at hstep
    cases hstep.2
    exact .fail hstep.1
  | abandon chunks =>
    cases hstep
    exact .abandon
  | up pos =>
    simp only [step, Option.ite_none_right_eq_some] at hstep
    cases hstep.2
    exact .up hstep.1.2
  | down =>
    simp only [step, Option.ite_none_right_eq_some] at hstep
    cases hstep.2
    exact .down
  | take lsn now =>
    simp only [step, Option.bind_eq_bind, Option.bind_eq_some_iff, Option.pure_def] at hstep
    obtain ⟨s, hstream, item, hitem, hstep⟩ := hstep
    cases hstep
    exact .take hstream hitem
  | delivered n =>
    simp only [step, Option.bind_eq_bind, Option.bind_eq_some_iff, Option.pure_def] at hstep
    obtain ⟨s, hstream, content, hcontent, hstep⟩ := hstep
    cases hstep
    exact .delivered hstream hcontent

end Process

/-! ## One process and the database -/

structure System (V : Type) where
  history : History V := {}
  process : Process V

inductive SystemAct (V : Type) where
  /-- A transaction commits. -/
  | commit (events : List (CDCEvent V))
  /-- Some other process writes a message with the watermark prefix. -/
  | foreign (content : Option WatermarkPayload)
  | process (a : ProcessAct V)

def History.commit (h : History V) (events : List (CDCEvent V)) : History V :=
  { h with wal := h.wal ++ (events.map .change ++ [.commit]) }

def History.foreign (h : History V) (content : Option WatermarkPayload) : History V :=
  { h with wal := h.wal ++ [.mark content] }

def System.step [ToString V] (s : System V) : SystemAct V → Option (System V)
  | .commit events => some { s with history := s.history.commit events }
  | .foreign content => some { s with history := s.history.foreign content }
  | .process a => (s.process.step s.history a).map fun (history, process) => { history, process }

end Gtc.Backfill
