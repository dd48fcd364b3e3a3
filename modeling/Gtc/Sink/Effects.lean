/-
What a sink stack asks of the world while it processes a batch, and the
`domain.Sink` interface over it.

The layers of `newSinks` are wrappers around an inner sink, so each is a
function from sinks to sinks; a `Process` is a program that asks for the
destination's own `Process`, for `Store.Park`, for the circuit breaker, for
the failure records of the DLQ manager, and for what the clock and the
context say. Claims about every sequence of outcomes are claims about every
execution of these programs.
-/
import Gtc.Domain
import Gtc.Lib.Program

namespace Gtc

open Lib

inductive Op (V : Type) where
  /-- The destination's own `Process`. -/
  | process (sink : String) (events : List (CDCEvent V))
  /-- `Store.Park`. -/
  | park (entry : DeadLetterEntry V)
  /-- Is `ctx.Err()` non-nil? -/
  | ctxErr
  /-- The wait before another attempt: did the context end it? -/
  | backoff (sink : String)
  /-- `gobreaker`'s `beforeRequest`: the request's generation, or a rejection. -/
  | beforeRequest (sink : String)
  | afterRequest (sink : String) (generation : ℕ) (success : Bool)
  /-- `Manager.recordFailure`: the count, the first failure, whether the
  threshold is reached. -/
  | recordFailure (sink eventID : String)
  | failureInfo (sink eventID : String)
  | clearFailure (sink eventID : String)
  | clearFailures (sink : String) (eventIDs : List String)
  /-- `time.Now`. -/
  | now

@[reducible] def Op.Res {V : Type} : Op V → Type
  | .process _ _ => Option Err
  | .park _ => Option Err
  | .ctxErr => Bool
  | .backoff _ => Bool
  | .beforeRequest _ => Except Err ℕ
  | .afterRequest _ _ _ => Unit
  | .recordFailure _ _ => ℕ × ℕ × Bool
  | .failureInfo _ _ => ℕ × ℕ
  | .clearFailure _ _ => Unit
  | .clearFailures _ _ => Unit
  | .now => ℕ

/-- The effects of the sink layers. -/
abbrev sinkSig (V : Type) : Signature := ⟨Op V, Op.Res⟩

abbrev SinkM (V : Type) := Program (sinkSig V)

abbrev Trace (V : Type) := List (sinkSig V).Event

def ask {V : Type} (o : Op V) : SinkM V o.Res := Program.perform (S := sinkSig V) o

/-- An operation whose answer does not matter. -/
theorem ensures_ask {V α : Type} {A G : (sinkSig V).Event → Prop} {o : Op V} {f : o.Res → SinkM V α} {Q : α → Prop}
    (ho : ∀ r, G ⟨o, r⟩) (hf : ∀ r, Ensures A G (f r) Q) : Ensures A G (ask o >>= f) Q :=
  (Ensures.perform (S := sinkSig V) (Q := fun _ => True) fun r _ => ⟨ho r, trivial⟩).bind fun r _ => hf r

/-- `domain.Sink`, with `MaxBatchEvents` (0 for a sink that is no
`BatchLimiter`). `process` returns nil or the error. -/
structure Sink (V : Type) where
  name : String
  maxBatchEvents : Int
  process : List (CDCEvent V) → SinkM V (Option Err)

/-- A destination: its `Process` is whatever the world answers. -/
def destination {V : Type} (name : String) (maxBatchEvents : Int) : Sink V where
  name
  maxBatchEvents
  process events := ask (.process name events)

/-! ## What was settled -/

/-- The events an operation settled: a destination's `Process` that returned
nil accepts its batch, a `Park` that returned nil settles its one event. -/
def settledBy {V : Type} : (sinkSig V).Event → Option (List (CDCEvent V))
  | ⟨.process _ events, none⟩ => some events
  | ⟨.park entry, none⟩ => some [entry.event]
  | _ => none

/-- The settled batches of a trace, in time order. -/
def settled {V : Type} (t : Trace V) : List (List (CDCEvent V)) := t.filterMap settledBy

end Gtc
