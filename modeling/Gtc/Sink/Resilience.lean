/-
`resilience.ResilientSink`: retries with a circuit breaker around them, and
the circuit breaker itself as `gobreaker` documents it.
-/
import Gtc.Sink.Effects

namespace Gtc

open Lib

variable {V : Type}

/-! ## The circuit breaker -/

inductive BreakerState where
  | closed
  | halfOpen
  | open
deriving DecidableEq, Repr

/-- `gobreaker.CircuitBreaker` with the settings `NewResilientSink` gives it:
no `Interval` (a closed breaker keeps its counts), one request admitted while
half-open, open once `ConsecutiveFailures` reaches `failureThreshold`. -/
structure Breaker where
  failureThreshold : ℕ
  state : BreakerState := .closed
  generation : ℕ := 0
  requests : ℕ := 0
  consecutiveSuccesses : ℕ := 0
  consecutiveFailures : ℕ := 0
deriving DecidableEq, Repr

namespace Breaker

/-- A state change starts a new generation with zero counts. -/
def setState (b : Breaker) (state : BreakerState) : Breaker :=
  if b.state = state then b
  else { b with state, generation := b.generation + 1, requests := 0, consecutiveSuccesses := 0,
                consecutiveFailures := 0 }

/-- The state at a request: an open breaker whose timeout has `expired` turns
half-open. -/
def currentState (b : Breaker) (expired : Bool) : Breaker :=
  if b.state = .open && expired then b.setState .halfOpen else b

def beforeRequest (b : Breaker) (expired : Bool) : Except Err ℕ × Breaker :=
  let b := b.currentState expired
  if b.state = .open then (.error .openState, b)
  else if b.state = .halfOpen && b.requests ≥ 1 then (.error .tooManyRequests, b)
  else (.ok b.generation, { b with requests := b.requests + 1 })

def onSuccess (b : Breaker) : Breaker :=
  let b' := { b with consecutiveSuccesses := b.consecutiveSuccesses + 1, consecutiveFailures := 0 }
  if b.state = .halfOpen && b'.consecutiveSuccesses ≥ 1 then b'.setState .closed else b'

def onFailure (b : Breaker) : Breaker :=
  match b.state with
  | .closed =>
    let b' := { b with consecutiveFailures := b.consecutiveFailures + 1, consecutiveSuccesses := 0 }
    if b'.consecutiveFailures ≥ b.failureThreshold then b'.setState .open else b'
  | .halfOpen => b.setState .open
  | .open => b

/-- The outcome of a request of an earlier generation is ignored. -/
def afterRequest (b : Breaker) (generation : ℕ) (success : Bool) : Breaker :=
  if b.generation ≠ generation then b else if success then b.onSuccess else b.onFailure

end Breaker

/-! ## The decorator -/

/-- `Settings.IsSuccessful`: a data error says nothing about the sink's health
and a cancellation is shutdown. -/
def isSuccessful : Option Err → Bool
  | none => true
  | some err => err.isPermanent || err.is .canceled

/-- The loop of `processWithRetry`; `left` attempts remain, so that
`i == MaxRetries` reads `left = 0` after the attempt. -/
def retryLoop (inner : Sink V) (events : List (CDCEvent V)) : Option Err → ℕ → SinkM V (Option Err)
  | lastErr, 0 => pure lastErr
  | _, left + 1 => do
    match ← inner.process events with
    | none => pure none
    | some err =>
      if err.isPermanent then pure (some err)
      else if ← ask .ctxErr then pure (some err)
      else if left = 0 then pure (some err)
      else if ← ask (.backoff inner.name) then pure (some err)
      else retryLoop inner events (some err) left

/-- `for i := 0; i <= MaxRetries; i++`, which makes no attempt at all when
`MaxRetries` is negative. -/
def processWithRetry (inner : Sink V) (maxRetries : Int) (events : List (CDCEvent V)) :
    SinkM V (Option Err) :=
  retryLoop inner events none (maxRetries + 1).toNat

/-- `breaker.Execute`. -/
def execute (name : String) (req : SinkM V (Option Err)) : SinkM V (Option Err) := do
  match ← ask (.beforeRequest name) with
  | .error err => pure (some err)
  | .ok generation =>
    let err ← req
    ask (.afterRequest name generation (isSuccessful err))
    pure err

/-- `NewResilientSink`. -/
def resilientSink (inner : Sink V) (maxRetries : Int) : Sink V where
  name := inner.name
  maxBatchEvents := inner.maxBatchEvents
  process events := do
    if events.isEmpty then return none
    match ← execute inner.name (processWithRetry inner maxRetries events) with
    | none => return none
    | some err =>
      if err.is .openState || err.is .tooManyRequests then
        return some (.wrap (Err.error .circuitOpen ++ ": " ++ err.error) .circuitOpen)
      return some err

end Gtc
