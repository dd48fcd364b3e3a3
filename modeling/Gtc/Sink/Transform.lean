/-
`transform.Chain` and `transform.Sink`: filters, dropped columns and masks
applied to a sink's own copy of each event.

A compiled CEL program is a function of the variables `celEnv` declares; it
fails, or gives a boolean, or gives a value of some other type, whose name
the error message carries.
-/
import Gtc.Sink.Effects

namespace Gtc

open Lib

variable {V : Type}

/-- `cel.Program.Eval` at `op`, `schema`, `table`, `new` and `old`. -/
abbrev CelProgram (V : Type) :=
  String → String → String → Data V → Data V → Except Err (Bool ⊕ String)

structure CompiledSpec (V : Type) where
  filter : Option (CelProgram V)
  drop : List String
  /-- A mask may give nil (the `null` strategy). -/
  mask : List (String × (V → Option V))

structure Chain (V : Type) where
  steps : List (CompiledSpec V)

def evalFilter (prg : CelProgram V) (event : CDCEvent V) : Except Err Bool :=
  match prg event.operation.string event.schema event.table (event.newData.getD []) (event.oldData.getD []) with
  | .error err =>
    .error (.wrap ("evaluate filter for " ++ event.schema ++ "." ++ event.table ++ ": " ++ err.error) err)
  | .ok (.inl keep) => .ok keep
  | .ok (.inr type) =>
    .error (.new ("filter for " ++ event.schema ++ "." ++ event.table ++ " returned " ++ type ++ ", expected bool"))

/-- `delete(data, col)`. -/
def deleteColumn (data : Data V) (col : String) : Data V := data.filter fun c => c.1 != col

/-- A missing or nil column is left as it is. -/
def maskColumn (data : Data V) (col : String) (fn : V → Option V) : Data V :=
  data.map fun
    | (c, some v) => if c = col then (c, fn v) else (c, some v)
    | (c, none) => (c, none)

def CompiledSpec.rewrite (step : CompiledSpec V) (data : Data V) : Data V :=
  step.mask.foldl (fun d m => maskColumn d m.1 m.2) (step.drop.foldl deleteColumn data)

/-- The loop of `Chain.Apply`: `none` for an event that is not kept. The copy
the source makes before its first write is the value semantics of `Data`. -/
def applySteps : List (CompiledSpec V) → CDCEvent V → Except Err (Option (CDCEvent V))
  | [], event => .ok (some event)
  | step :: steps, event => do
    if let some prg := step.filter then
      if !(← evalFilter prg event) then return none
    if step.drop.isEmpty && step.mask.isEmpty then
      applySteps steps event
    else
      applySteps steps
        { event with newData := event.newData.map step.rewrite, oldData := event.oldData.map step.rewrite }

/-- `Chain.Apply`; a nil chain applies nothing. -/
def Chain.apply : Option (Chain V) → CDCEvent V → Except Err (Option (CDCEvent V))
  | none, event => .ok (some event)
  | some chain, event => applySteps chain.steps event

/-- `Sink.tableChain`: the chain written for `schema.table`, else for `table`. -/
def tableChain (tables : List (String × Chain V)) (event : CDCEvent V) : Option (Chain V) :=
  match tables.lookup (event.schema ++ "." ++ event.table) with
  | some chain => some chain
  | none => tables.lookup event.table

/-- What one iteration of `Sink.Process` makes of an event: the sink-level
chain, then the chain of the table the event has by then. -/
def transformEvent (global : Option (Chain V)) (tables : List (String × Chain V)) (event : CDCEvent V) :
    Except Err (Option (CDCEvent V)) := do
  match ← Chain.apply global event with
  | none => return none
  | some event => Chain.apply (tableChain tables event) event

/-- The loop of `Sink.Process`, up to its first error. -/
def transformBatch (global : Option (Chain V)) (tables : List (String × Chain V)) :
    List (CDCEvent V) → Except Err (List (CDCEvent V))
  | [] => .ok []
  | event :: events => do
    let out ← transformEvent global tables event
    return out.toList ++ (← transformBatch global tables events)

/-- `transform.NewSink` over compiled chains: the inner sink itself when there
are none. -/
def transformSink (inner : Sink V) (global : Option (Chain V)) (tables : List (String × Chain V)) : Sink V :=
  if global.isNone && tables.isEmpty then inner
  else
    { name := inner.name
      maxBatchEvents := inner.maxBatchEvents
      process := fun events =>
        match transformBatch global tables events with
        | .error err => pure (some (.permanent err))
        | .ok [] => pure none
        | .ok (e :: out) => inner.process (e :: out) }

end Gtc
