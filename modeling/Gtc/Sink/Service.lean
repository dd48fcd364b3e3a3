/-
`newSinks` and `cdcService`: the sink stacks, and how a batch is admitted,
cut to each sink's limit and fanned out to all of them.
-/
import Gtc.Sink.Dlq
import Gtc.Sink.Resilience
import Gtc.Sink.Transform

namespace Gtc

open Lib

variable {V : Type}

/-! ## The outbox table -/

/-- `excludingSink.Process`: the batch itself when nothing is dropped. -/
def withoutTable (schema table : String) (events : List (CDCEvent V)) : List (CDCEvent V) :=
  match events.findIdx? (fun e => e.schema == schema && e.table == table) with
  | none => events
  | some i => events.take i ++ (events.drop (i + 1)).filter fun e => e.schema != schema || e.table != table

/-- `outbox.ExcludeTable`. -/
def excludeTable (inner : Sink V) (schema table : String) : Sink V where
  name := inner.name
  maxBatchEvents := inner.maxBatchEvents
  process events :=
    match withoutTable schema table events with
    | [] => pure none
    | e :: kept => inner.process (e :: kept)

/-! ## `newSinks` -/

/-- One sink `newSinks` builds: the destination, its compiled transforms, and
the outbox table kept out of it. -/
structure SinkSpec (V : Type) where
  name : String
  maxBatchEvents : Int
  global : Option (Chain V)
  tables : List (String × Chain V)
  excluded : Option (String × String)

structure SinksConfig (V : Type) where
  maxRetries : Int
  /-- Whether there is a DLQ manager. -/
  dlq : Bool
  /-- The outbox table, when an outbox is configured. -/
  outbox : Option (String × String)
  /-- The enabled data-mirroring sinks, with their limits and transforms. -/
  sinks : List (String × Int × Option (Chain V) × List (String × Chain V))
  /-- The name of the outbox sink. -/
  outboxName : String

/-- `wrapResilienceAndDLQ`. -/
def wrapResilienceAndDLQ (cfg : SinksConfig V) (sink : Sink V) : Sink V :=
  let wrapped := resilientSink sink cfg.maxRetries
  if cfg.dlq then dlqSink wrapped else wrapped

/-- `addSink`, and the bare append of the outbox sink (no transforms and no
excluded table). -/
def SinkSpec.build (cfg : SinksConfig V) (spec : SinkSpec V) : Sink V :=
  let wrapped := transformSink (wrapResilienceAndDLQ cfg (destination spec.name spec.maxBatchEvents))
    spec.global spec.tables
  match spec.excluded with
  | none => wrapped
  | some (schema, table) => excludeTable wrapped schema table

/-- The sinks of `newSinks`, innermost first: resilience, DLQ, transforms, and
the outbox table kept out of all but the outbox sink. -/
def newSinks (cfg : SinksConfig V) : List (SinkSpec V) :=
  cfg.sinks.map (fun (name, maxBatchEvents, global, tables) =>
    { name, maxBatchEvents, global, tables, excluded := cfg.outbox }) ++
  (match cfg.outbox with
   | none => []
   | some _ => [{ name := cfg.outboxName, maxBatchEvents := 0, global := none, tables := [], excluded := none }])

/-- `sinkRegistry.Register`: a second sink of the same name is refused, and
`NewSinkRegistryWithSinks` ignores the refusal. -/
def register (registry : List (SinkSpec V)) (spec : SinkSpec V) : List (SinkSpec V) :=
  if registry.any (·.name == spec.name) then registry else registry ++ [spec]

/-- `NewSinkRegistryWithSinks`. -/
def newSinkRegistry (sinks : List (SinkSpec V)) : List (SinkSpec V) := sinks.foldl register []

/-! ## `cdcService` -/

structure CDCServiceConfig where
  parallelSinks : Bool
  excludedTables : List String

def CDCServiceConfig.isTableExcluded (cfg : CDCServiceConfig) (schema table : String) : Bool :=
  if cfg.excludedTables.isEmpty then false
  else if table ∈ cfg.excludedTables then true
  else (schema ++ "." ++ table) ∈ cfg.excludedTables

/-- The loop of `admit` at index `i`, with the kept events and whether they
are a copy already. -/
def admitLoop (cfg : CDCServiceConfig) (events : List (CDCEvent V)) :
    ℕ → List (CDCEvent V) → List (CDCEvent V) → Bool → List (CDCEvent V)
  | _, [], kept, _ => kept
  | i, e :: rest, kept, copied =>
    if cfg.isTableExcluded e.schema e.table then
      admitLoop cfg events (i + 1) rest (if copied then kept else events.take i) true
    else admitLoop cfg events (i + 1) rest (if copied then kept ++ [e] else kept) copied

/-- `cdcService.admit`: the events of tables that are not excluded. -/
def admitEvents (cfg : CDCServiceConfig) (events : List (CDCEvent V)) : List (CDCEvent V) :=
  admitLoop cfg events 0 events events false

/-- The loop of `deliver`, a slice at a time; the rest of the batch gets
shorter, so its length is fuel enough. -/
def deliverSlices (sink : Sink V) (limit : ℕ) : ℕ → List (CDCEvent V) → SinkM V (Option Err)
  | 0, _ => pure none
  | _ + 1, [] => pure none
  | fuel + 1, events => do
    match ← sink.process (events.take limit) with
    | some err => return some err
    | none => deliverSlices sink limit fuel (events.drop limit)

/-- `services.deliver`. -/
def deliver (sink : Sink V) (events : List (CDCEvent V)) : SinkM V (Option Err) :=
  let limit := sink.maxBatchEvents
  if limit ≤ 0 || events.length ≤ limit then sink.process events
  else deliverSlices sink limit.toNat events.length events

/-- `cdcService.ProcessBatch` over the registered sinks: one after the other,
or all at once. The result of a sink is its error. -/
inductive ProcessBatch (cfg : CDCServiceConfig) (sinks : List (Sink V)) (events : List (CDCEvent V)) :
    List (ℕ × (sinkSig V).Event) → List (Option Err) → Prop
  | parallel {t rs} : cfg.parallelSinks = true → 1 < sinks.length →
      Par (sinks.map (deliver · events)) t rs → ProcessBatch cfg sinks events t rs
  | sequential {t rs} : ¬ (cfg.parallelSinks = true ∧ 1 < sinks.length) →
      InOrder (sinks.map (deliver · events)) t rs → ProcessBatch cfg sinks events t rs

/-- A sink's error, wrapped with its name. -/
def sinkError (result : Sink V × Option Err) : Option Err :=
  result.2.map fun err => .wrap ("sink " ++ result.1.name ++ ": " ++ err.error) err

/-- The error `handleBatch` returns for the sinks' results. -/
def batchError (sinks : List (Sink V)) (results : List (Option Err)) : Option Err :=
  match (sinks.zip results).filterMap sinkError with
  | [] => none
  | err :: errs => some (.join ": " .sinkProcessFailed (errs.foldl (.join "\n") err))

/-- `cdcService.handleBatch`: what it asked of each sink, and what it
returned. -/
inductive HandleBatch (cfg : CDCServiceConfig) (sinks : List (Sink V)) (events : List (CDCEvent V)) :
    List (ℕ × (sinkSig V).Event) → Option Err → Prop
  | shutdown : HandleBatch cfg sinks events [] (some .shuttingDown)
  | nothing : admitEvents cfg events = [] → HandleBatch cfg sinks events [] none
  | processed {t rs} : admitEvents cfg events ≠ [] → ProcessBatch cfg sinks (admitEvents cfg events) t rs →
      HandleBatch cfg sinks events t (batchError sinks rs)

end Gtc
