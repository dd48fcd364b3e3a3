/-
The Meilisearch sink: the tasks a batch is planned as, `Process` with the tasks
it resumes, and what the events of a batch do one at a time.

Assumed of Meilisearch (`MeiliRun.writes`): adding replaces a document,
updating merges top-level fields, a document is the one with its printed
primary-key value, and the tasks of an index take effect in the order in which
they were enqueued.
-/
import Gtc.Lib.Documents
import Gtc.Sink.Keys

namespace Gtc

open Lib

variable {V : Type}

/-! ## Configuration -/

structure MeiliTableConfig where
  index : String
  primaryKey : String := ""
  searchableAttributes : List String := []
  filterableAttributes : List String := []

structure MeiliIndexSettings where
  primaryKey : String
  searchableAttributes : List String
  filterableAttributes : List String
deriving DecidableEq, Repr

def defaultMeiliPrimaryKey : String := "id"

structure MeilisearchSinkConfig where
  tables : List (String × MeiliTableConfig)

namespace MeilisearchSinkConfig

variable (c : MeilisearchSinkConfig)

/-- The entry written for `schema.table`, else for `table`. -/
def table (schema table : String) : Option MeiliTableConfig :=
  match c.tables.lookup (schema ++ "." ++ table) with
  | some tc => some tc
  | none => c.tables.lookup table

/-- An entry without an index maps the table nowhere. -/
def getIndex (schema table : String) : Option String :=
  match c.tables.lookup (schema ++ "." ++ table) with
  | some tc => if tc.index ≠ "" then some tc.index else none
  | none =>
    match c.tables.lookup table with
    | some tc => if tc.index ≠ "" then some tc.index else none
    | none => none

def getPrimaryKey (schema table : String) : String :=
  match c.table schema table with
  | some tc => if tc.primaryKey ≠ "" then tc.primaryKey else defaultMeiliPrimaryKey
  | none => defaultMeiliPrimaryKey

/-- The settings an entry asks for its index. -/
def settingsOf (tc : MeiliTableConfig) : MeiliIndexSettings where
  primaryKey := if tc.primaryKey = "" then defaultMeiliPrimaryKey else tc.primaryKey
  searchableAttributes := tc.searchableAttributes
  filterableAttributes := tc.filterableAttributes

/-- The loop of `IndexSettings`: the settings of each index so far, with the
table that set them. -/
def indexSettingsLoop : List (String × MeiliTableConfig) → List (String × MeiliIndexSettings × String) →
    Except Err (List (String × MeiliIndexSettings × String))
  | [], out => .ok out
  | (name, tc) :: tables, out =>
    if tc.index = "" then indexSettingsLoop tables out
    else
      match out.lookup tc.index with
      | some (prev, owner) =>
        if prev = settingsOf tc then indexSettingsLoop tables out
        else .error (.new ("meilisearch index " ++ goQuote tc.index ++ ": tables " ++ owner ++ " and " ++ name ++
          " set different index settings"))
      | none => indexSettingsLoop tables (out ++ [(tc.index, settingsOf tc, name)])

/-- `IndexSettings`: tables that share an index must agree on its settings. -/
def indexSettings : Except Err (List (String × MeiliIndexSettings)) :=
  (indexSettingsLoop c.tables []).map fun out => out.map fun (index, settings, _) => (index, settings)

end MeilisearchSinkConfig

structure MeiliSink (V : Type) where
  config : MeilisearchSinkConfig
  /-- `fmt.Sprint` of a column value. -/
  sprint : V → String

/-! ## Runs and plans -/

inductive RunKind where
  /-- Full documents (insert, read). -/
  | runReplace
  /-- Top-level fields (update). -/
  | runPartial
  | runDelete
  /-- Every document (truncate). -/
  | runClear
deriving DecidableEq, Repr

def RunKind.string : RunKind → String
  | runReplace => "add documents"
  | runPartial => "update documents"
  | runDelete => "delete documents"
  | runClear => "delete all documents"

/-- One task's worth of consecutive events of a kind; `pos` maps a printed key to
its place in `docs` or `ids`. -/
structure MeiliRun (V : Type) where
  kind : RunKind
  primaryKey : String
  docs : List (Data V) := []
  ids : List String := []
  pos : List (String × ℕ) := []
  eventIDs : List String := []

/-- A copy of `old` with the entries of `data` written over it. -/
def mergeData (old data : Data V) : Data V := data ++ old.filter fun c => (data.get c.1).isNone

def MeiliRun.addDoc (r : MeiliRun V) (id : String) (data : Data V) : MeiliRun V :=
  match r.pos.lookup id with
  | some at_ =>
    if r.kind = .runPartial then { r with docs := r.docs.modify at_ (mergeData · data) }
    else { r with docs := r.docs.set at_ data }
  | none => { r with pos := (id, r.docs.length) :: r.pos, docs := r.docs ++ [data] }

def MeiliRun.addID (r : MeiliRun V) (id : String) : MeiliRun V :=
  match r.pos.lookup id with
  | some _ => r
  | none => { r with pos := (id, r.ids.length) :: r.pos, ids := r.ids ++ [id] }

structure BatchPlan (V : Type) where
  /-- The indexes in first-seen order. -/
  order : List String := []
  runs : String → Option (List (MeiliRun V)) := fun _ => none

/-- The run `runFor` returns, changed by `f`: the index's last one when it is of
the same kind, else a new one. -/
def BatchPlan.inRun (p : BatchPlan V) (index : String) (kind : RunKind) (primaryKey : String)
    (f : MeiliRun V → MeiliRun V) : BatchPlan V :=
  let runs := (p.runs index).getD []
  let order := if (p.runs index).isSome then p.order else p.order ++ [index]
  let runs' := match runs.getLast? with
    | some r =>
      if r.kind = kind ∧ kind ≠ .runClear then runs.dropLast ++ [f r] else runs ++ [f { kind, primaryKey }]
    | none => runs ++ [f { kind, primaryKey }]
  { order, runs := Function.update p.runs index (some runs') }

namespace MeiliSink

variable (s : MeiliSink V)

/-- The key of a document or of the row a delete names: the printed value, when it
is there and not nil. -/
def keyOf (primaryKey : String) (data : Data V) : Option String := (data.get primaryKey).join.map s.sprint

/-- One iteration of `plan`. -/
def planEvent (p : BatchPlan V) (event : CDCEvent V) : Except Err (BatchPlan V) :=
  match s.config.getIndex event.schema event.table with
  | none => .ok p
  | some index =>
    let primaryKey := s.config.getPrimaryKey event.schema event.table
    match event.operation with
    | .insert | .read | .update =>
      match event.newData with
      | none => .ok p
      | some data =>
        match s.keyOf primaryKey data with
        | none =>
          .error (.permanent (.new ("event " ++ event.id ++ " for " ++ event.fullTableName ++
            " has no value for meilisearch primary key " ++ goQuote primaryKey)))
        | some id =>
          let kind := if event.operation = .update then .runPartial else .runReplace
          .ok (p.inRun index kind primaryKey fun r =>
            { r.addDoc id data with eventIDs := r.eventIDs ++ [event.id] })
    | .delete =>
      match event.oldData with
      | none => .ok p
      | some data =>
        match s.keyOf primaryKey data with
        | none => .ok p
        | some id =>
          .ok (p.inRun index .runDelete primaryKey fun r => { r.addID id with eventIDs := r.eventIDs ++ [event.id] })
    | .truncate =>
      .ok (p.inRun index .runClear primaryKey fun r => { r with eventIDs := r.eventIDs ++ [event.id] })

def plan (events : List (CDCEvent V)) : Except Err (BatchPlan V) := events.foldlM s.planEvent {}

end MeiliSink

/-! ## The server -/

/-- The fields of a document. -/
def Data.doc (data : Data V) : Document String (Option V) := data.get

abbrev MeiliWrite (V : Type) := Write String String (Option V)

/-- The documents of every index. -/
abbrev Indexes (V : Type) := String → Documents String String (Option V)

/-- What the task of a run does to its index, document by document. -/
def MeiliRun.writes (s : MeiliSink V) (r : MeiliRun V) : List (MeiliWrite V) :=
  match r.kind with
  | .runReplace => r.docs.filterMap fun doc => (s.keyOf r.primaryKey doc).map (.replace · doc.doc)
  | .runPartial => r.docs.filterMap fun doc => (s.keyOf r.primaryKey doc).map (.merge · doc.doc)
  | .runDelete => r.ids.map .delete
  | .runClear => [.clear]

/-- What the runs of an index do to it, in order. -/
def BatchPlan.writes (s : MeiliSink V) (p : BatchPlan V) (index : String) : List (MeiliWrite V) :=
  ((p.runs index).getD []).flatMap (MeiliRun.writes s)

/-- The indexes after every task of the plan. -/
def BatchPlan.apply (s : MeiliSink V) (p : BatchPlan V) (c : Indexes V) : Indexes V :=
  fun index => applyAll (p.writes s index) (c index)

/-! ## `Process` -/

/-- How a task ends. -/
inductive TaskResult where
  | succeeded
  | failed (status message code type : String)
deriving DecidableEq, Repr

structure EnqueuedTask (V : Type) where
  uid : ℕ
  index : String
  run : MeiliRun V
  result : TaskResult

/-- The tasks of a batch whose wait was interrupted. -/
structure Inflight (V : Type) where
  key : String
  tasks : List (EnqueuedTask V)

/-- How a wait for tasks ends. -/
inductive TaskWait where
  | finished
  | pollError (err : Err)
  /-- Meilisearch knows only some of the tasks. -/
  | lost (found : ℕ)
  /-- The context is done, with this error. -/
  | interrupted (err : Err)
deriving DecidableEq, Repr

/-- What the server does in an attempt: the answer to the `i`-th task enqueued (an
error, with the status code of an API error and whether the task was taken all
the same, its answer lost, and succeeds), and how the wait ends. -/
structure TaskFates where
  enqueue : ℕ → Except (Option ℕ × Err × Bool) (ℕ × TaskResult)
  wait : TaskWait

structure MeiliState (V : Type) where
  indexes : Indexes V
  pending : Option (Inflight V)

def errTaskFailed : Err := .new "meilisearch task failed"

def errTasksLost : Err := .new "meilisearch tasks lost"

def batchKey (events : List (CDCEvent V)) : String :=
  toString events.length ++ "\x1f" ++ (events.head?.map (·.id)).getD "" ++ "\x1f" ++ (events.getLast?.map (·.id)).getD ""

def MeiliState.resumable (st : MeiliState V) (key : String) : Option (List (EnqueuedTask V)) :=
  match st.pending with
  | some pending => if pending.key = key then some pending.tasks else none
  | none => none

def MeiliState.forget (st : MeiliState V) (key : String) : MeiliState V :=
  match st.pending with
  | some pending => if pending.key = key then { st with pending := none } else st
  | none => st

/-- A request the server refused for its payload is a data error. -/
def classifyAPIError (status : Option ℕ) (err : Err) : Err :=
  match status with
  | some code =>
    if 400 ≤ code ∧ code < 500 ∧ code ≠ 408 ∧ code ≠ 429 ∧ code ≠ 401 ∧ code ≠ 403 then .permanent err else err
  | none => err

/-- The tasks of the plan in the order in which they are enqueued. -/
def BatchPlan.tasks (p : BatchPlan V) : List (String × MeiliRun V) :=
  p.order.flatMap fun index => ((p.runs index).getD []).map fun run => (index, run)

/-- The loop that enqueues, from the `i`-th task on. A task that will succeed has
its effect on its index here, in enqueue order. -/
def enqueueTasks (s : MeiliSink V) (fates : TaskFates) :
    ℕ → List (String × MeiliRun V) → Indexes V → Except Err (List (EnqueuedTask V)) × Indexes V
  | _, [], c => (.ok [], c)
  | i, (index, run) :: rest, c =>
    match fates.enqueue i with
    | .error (status, err, taken) =>
      let err := classifyAPIError status err
      let c := if taken then Function.update c index (applyAll (run.writes s) (c index)) else c
      (.error (.wrap ("meilisearch " ++ run.kind.string ++ " on " ++ goQuote index ++ ": " ++ err.error) err), c)
    | .ok (uid, result) =>
      let c := if result = .succeeded then Function.update c index (applyAll (run.writes s) (c index)) else c
      let (tasks, c) := enqueueTasks s fates (i + 1) rest c
      (tasks.map ({ uid, index, run, result } :: ·), c)

/-- The failed task with the smallest UID, with its status, message, code and
type. -/
def firstFailed : List (EnqueuedTask V) → Option (EnqueuedTask V × String × String × String × String)
  | [] => none
  | task :: tasks =>
    match task.result, firstFailed tasks with
    | .succeeded, rest => rest
    | .failed status message code type, some (other, info) =>
      if task.uid ≤ other.uid then some (task, status, message, code, type) else some (other, info)
    | .failed status message code type, none => some (task, status, message, code, type)

def awaitTasks (tasks : List (EnqueuedTask V)) : TaskWait → Option Err
  | .pollError err => some (.wrap ("poll meilisearch tasks: " ++ err.error) err)
  | .lost found =>
    some (.wrap (errTasksLost.error ++ ": " ++ toString (tasks.length - found) ++ " of " ++ toString tasks.length ++
      " tasks not found") errTasksLost)
  | .interrupted err => some (.wrap ("wait for meilisearch tasks: " ++ err.error) err)
  | .finished =>
    match firstFailed tasks with
    | none => none
    | some (task, status, message, code, type) =>
      let err := .wrap (errTaskFailed.error ++ ": task " ++ toString task.uid ++ " (" ++ task.run.kind.string ++ " on " ++
        goQuote task.index ++ ", " ++ toString task.run.eventIDs.length ++ " events) " ++ status ++ ": " ++ message ++ " (" ++
        code ++ ")") errTaskFailed
      some (if type = "invalid_request" then .permanent err else err)

/-- The end of `Process`: the tasks are forgotten once they are known to be done or
lost. -/
def MeiliState.await (st : MeiliState V) (key : String) (tasks : List (EnqueuedTask V)) (wait : TaskWait) :
    Option Err × MeiliState V :=
  match awaitTasks tasks wait with
  | none => (none, st.forget key)
  | some err => (some err, if err.is errTaskFailed || err.is errTasksLost then st.forget key else st)

def MeiliSink.process (s : MeiliSink V) (fates : TaskFates) (events : List (CDCEvent V)) (st : MeiliState V) :
    Option Err × MeiliState V :=
  if events.isEmpty then (none, st)
  else
    let key := batchKey events
    match st.resumable key with
    | some tasks => st.await key tasks fates.wait
    | none =>
      match s.plan events with
      | .error err => (some err, st)
      | .ok p =>
        if p.order.isEmpty then (none, st)
        else
          match enqueueTasks s fates 0 p.tasks st.indexes with
          | (.error err, indexes) => (some err, { st with indexes })
          | (.ok tasks, indexes) =>
            MeiliState.await { indexes, pending := some { key, tasks } } key tasks fates.wait

/-! ## One event at a time -/

/-- What an event does on its own: the index it writes to and the write. -/
def MeiliSink.eventWrite (s : MeiliSink V) (event : CDCEvent V) : Option (String × MeiliWrite V) :=
  match s.config.getIndex event.schema event.table with
  | none => none
  | some index =>
    let primaryKey := s.config.getPrimaryKey event.schema event.table
    match event.operation with
    | .insert | .read =>
      event.newData.bind fun data => (s.keyOf primaryKey data).map fun id => (index, .replace id data.doc)
    | .update => event.newData.bind fun data => (s.keyOf primaryKey data).map fun id => (index, .merge id data.doc)
    | .delete => event.oldData.bind fun data => (s.keyOf primaryKey data).map fun id => (index, .delete id)
    | .truncate => some (index, .clear)

def MeiliSink.applyEvent (s : MeiliSink V) (c : Indexes V) (event : CDCEvent V) : Indexes V :=
  match s.eventWrite event with
  | none => c
  | some (index, w) => Function.update c index (w.apply (c index))

/-- The writes of the events to one index. -/
def MeiliSink.eventWrites (s : MeiliSink V) (index : String) (events : List (CDCEvent V)) : List (MeiliWrite V) :=
  (events.filterMap s.eventWrite).filterMap fun w => if w.1 = index then some w.2 else none

theorem MeiliSink.applyEvent_eq (s : MeiliSink V) (events : List (CDCEvent V)) (c : Indexes V) (index : String) :
    events.foldl s.applyEvent c index = applyAll (s.eventWrites index events) (c index) := by
  induction events generalizing c with
  | nil => rfl
  | cons event events ih =>
    rw [List.foldl_cons, ih]
    cases hw : s.eventWrite event with
    | none => simp [MeiliSink.applyEvent, MeiliSink.eventWrites, hw]
    | some w =>
      by_cases hindex : w.1 = index
      · subst hindex
        simp [MeiliSink.applyEvent, MeiliSink.eventWrites, hw]
      · simp [MeiliSink.applyEvent, MeiliSink.eventWrites, hw, hindex, Function.update_of_ne (Ne.symm hindex)]

end Gtc
