/-
`dlq.Sink` and `dlq.Manager`: dead-lettering with bisection around a
resilience-wrapped sink.

The manager's failure records are a map from `<sink>:<event_id>` to a count
and the time of the first failure; the sink reads and writes them through
the operations of `Gtc.Op`, and the functions on `Failures` here are what
those operations do.
-/
import Gtc.Sink.Effects

namespace Gtc

open Lib

variable {V : Type}

/-! ## The manager's failure records -/

structure FailureRecord where
  count : ℕ
  first : ℕ
deriving DecidableEq, Repr

/-- `NewManager`: the threshold it is given, or the default. -/
def newManagerThreshold (threshold : Int) : ℕ := if threshold ≤ 0 then 3 else threshold.toNat

theorem newManagerThreshold_pos (threshold : Int) : 0 < newManagerThreshold threshold := by
  simp only [newManagerThreshold]
  split <;> omega

/-- `Manager.failures`. -/
abbrev Failures := String → Option FailureRecord

def failureKey (sinkName eventID : String) : String := sinkName ++ ":" ++ eventID

namespace Failures

/-- `Manager.recordFailure` at time `now`, with the manager's `threshold`. -/
def recordFailure (f : Failures) (threshold now : ℕ) (sinkName eventID : String) :
    (ℕ × ℕ × Bool) × Failures :=
  let key := failureKey sinkName eventID
  let rec' := (f key).getD ⟨0, 0⟩
  let rec' := if rec'.count = 0 then { rec' with first := now } else rec'
  let rec' := { rec' with count := rec'.count + 1 }
  ((rec'.count, rec'.first, rec'.count ≥ threshold), Function.update f key (some rec'))

/-- `Manager.failureInfo`: an event never counted has failed once, now. -/
def failureInfo (f : Failures) (now : ℕ) (sinkName eventID : String) : ℕ × ℕ :=
  match f (failureKey sinkName eventID) with
  | some r => if r.count > 0 then (r.count, r.first) else (1, now)
  | none => (1, now)

def clearFailure (f : Failures) (sinkName eventID : String) : Failures :=
  Function.update f (failureKey sinkName eventID) none

/-- `Manager.clearFailures`. The source returns early when the map is empty,
where the deletions do nothing. -/
def clearFailures (f : Failures) (sinkName : String) (eventIDs : List String) : Failures :=
  eventIDs.foldl (fun f id => f.clearFailure sinkName id) f

/-- How often the DLQ has counted a failed delivery on an event. -/
def count (f : Failures) (sinkName eventID : String) : ℕ :=
  ((f (failureKey sinkName eventID)).getD ⟨0, 0⟩).count

end Failures

theorem failureKey_inj {sinkName id id' : String} : failureKey sinkName id = failureKey sinkName id' ↔ id = id' := by
  simp [failureKey, ← String.toList_inj]

theorem recordFailure_reached (threshold : ℕ) (f : Failures) (now : ℕ) (sinkName eventID : String) :
    (f.recordFailure threshold now sinkName eventID).1.2.2 = decide (threshold ≤ f.count sinkName eventID + 1) := by
  unfold Failures.recordFailure Failures.count
  dsimp only
  split <;> rfl

theorem count_recordFailure (threshold : ℕ) (f : Failures) (now : ℕ) (sinkName eventID id : String) :
    (f.recordFailure threshold now sinkName eventID).2.count sinkName id =
      if id = eventID then f.count sinkName id + 1 else f.count sinkName id := by
  simp only [Failures.recordFailure, Failures.count, Function.update_apply, failureKey_inj]
  split
  · next h =>
    subst h
    simp only [Option.getD_some]
    split <;> rfl
  · rfl

theorem count_clearFailures (f : Failures) (sinkName id : String) (eventIDs : List String) :
    (f.clearFailures sinkName eventIDs).count sinkName id = if id ∈ eventIDs then 0 else f.count sinkName id := by
  induction eventIDs generalizing f with
  | nil => rfl
  | cons eventID eventIDs ih =>
    have hone : (f.clearFailure sinkName eventID).count sinkName id = if id = eventID then 0 else f.count sinkName id := by
      simp only [Failures.clearFailure, Failures.count, Function.update_apply, failureKey_inj]
      split <;> rfl
    have hcons : f.clearFailures sinkName (eventID :: eventIDs) =
        (f.clearFailure sinkName eventID).clearFailures sinkName eventIDs := rfl
    rw [hcons, ih, hone]
    simp only [List.mem_cons]
    split <;> split <;> simp_all

/-! ## The decorator -/

/-- The failures that must never park anything: an open circuit, a timeout, a
done context. -/
def stalls (err : Err) : SinkM V Bool := do
  if err.is .circuitOpen then return true
  if err.is .deadlineExceeded then return true
  ask .ctxErr

/-- `Manager.park`. The gauges and the log line it also writes are left out. -/
def managerPark (sinkName : String) (event : CDCEvent V) (cause : Err) (attempts firstFailed : ℕ) :
    SinkM V (Option Err) := do
  let now ← ask .now
  let entry : DeadLetterEntry V :=
    { id := failureKey sinkName event.id
      sinkName
      schema := event.schema
      table := event.table
      operation := event.operation.string
      lsn := event.metadata.lsn
      error := cause.error
      attempts
      firstFailedAt := firstFailed
      lastFailedAt := now
      event }
  match ← ask (.park entry) with
  | some err => return some err
  | none =>
    ask (.clearFailure sinkName event.id)
    return none

/-- `Sink.park`: an event that cannot be parked keeps stalling. -/
def park (inner : Sink V) (event : CDCEvent V) (cause : Err) : SinkM V (Option Err) := do
  let (attempts, firstFailed) ← ask (.failureInfo inner.name event.id)
  match ← managerPark inner.name event cause attempts firstFailed with
  | some parkErr => return some (.join "\n" cause parkErr)
  | none => return none

/-- One half in the loop of `isolate`: delivered, or stalled, or isolated in
its turn. -/
def isolateHalf (inner : Sink V) (isolate : List (CDCEvent V) → Err → SinkM V (Option Err))
    (half : List (CDCEvent V)) : SinkM V (Option Err) := do
  match ← inner.process half with
  | none =>
    ask (.clearFailures inner.name (half.map (·.id)))
    return none
  | some herr =>
    if ← stalls herr then return some herr
    isolate half herr

/-- `Sink.isolate`, with the number of events as fuel: a half is shorter than
its batch, so it never runs out (`isolate_eq`). -/
def isolateFuel (inner : Sink V) : ℕ → List (CDCEvent V) → Err → SinkM V (Option Err)
  | 0, _, err => pure (some err)
  | _ + 1, [event], err => park inner event err
  | fuel + 1, events, _ => do
    let mid := events.length / 2
    match ← isolateHalf inner (isolateFuel inner fuel) (events.take mid) with
    | some err => return some err
    | none => isolateHalf inner (isolateFuel inner fuel) (events.drop mid)

/-- `Sink.isolate`: delivers what it can of a batch known to fail with `err`
and parks the events that fail on their own. -/
def isolate (inner : Sink V) (events : List (CDCEvent V)) (err : Err) : SinkM V (Option Err) :=
  isolateFuel inner events.length events err

theorem isolateHalf_congr {inner : Sink V} {f g : List (CDCEvent V) → Err → SinkM V (Option Err)}
    {half : List (CDCEvent V)} (h : f half = g half) : isolateHalf inner f half = isolateHalf inner g half := by
  simp only [isolateHalf, h]

theorem halves_shorter {events : List (CDCEvent V)} (h : 2 ≤ events.length) :
    (events.take (events.length / 2) ≠ [] ∧ (events.take (events.length / 2)).length < events.length) ∧
      (events.drop (events.length / 2) ≠ [] ∧ (events.drop (events.length / 2)).length < events.length) := by
  simp only [ne_eq, ← List.length_eq_zero_iff, List.length_take, List.length_drop]
  omega

theorem isolateFuel_succ {inner : Sink V} {events : List (CDCEvent V)} (h : 2 ≤ events.length) (fuel : ℕ) (err : Err) :
    isolateFuel inner (fuel + 1) events err = (do
      match ← isolateHalf inner (isolateFuel inner fuel) (events.take (events.length / 2)) with
      | some err => return some err
      | none => isolateHalf inner (isolateFuel inner fuel) (events.drop (events.length / 2))) := by
  match events with
  | [] | [_] => simp at h
  | _ :: _ :: _ => rfl

/-- The fuel does not matter once it covers the events. -/
theorem isolateFuel_enough {inner : Sink V} : ∀ (m n : ℕ) (events : List (CDCEvent V)), events ≠ [] →
    events.length ≤ m → events.length ≤ n → isolateFuel inner m events = isolateFuel inner n events := by
  intro m
  induction m with
  | zero => intro n events hne hm; exact absurd (List.length_eq_zero_iff.mp (by omega)) hne
  | succ m ih =>
    intro n events hne hm hn
    obtain ⟨n, rfl⟩ : ∃ k, n = k + 1 :=
      ⟨n - 1, by have := List.length_pos_iff.mpr hne; omega⟩
    match events with
    | [] => exact absurd rfl hne
    | [event] => rfl
    | a :: b :: rest =>
      have htwo : 2 ≤ (a :: b :: rest).length := by simp
      obtain ⟨⟨h₁, hl₁⟩, h₂, hl₂⟩ := halves_shorter htwo
      funext err
      rw [isolateFuel_succ htwo, isolateFuel_succ htwo, isolateHalf_congr (ih n _ h₁ (by omega) (by omega)), isolateHalf_congr (ih n _ h₂ (by omega) (by omega))]

/-- `Sink.isolate` as the source writes it, for a batch of two or more. -/
theorem isolate_eq {inner : Sink V} {events : List (CDCEvent V)} (h : 2 ≤ events.length) (err : Err) :
    isolate inner events err = (do
      match ← isolateHalf inner (isolate inner) (events.take (events.length / 2)) with
      | some err => return some err
      | none => isolateHalf inner (isolate inner) (events.drop (events.length / 2))) := by
  obtain ⟨⟨h₁, hl₁⟩, h₂, hl₂⟩ := halves_shorter h
  have half : ∀ l : List (CDCEvent V), l ≠ [] → l.length < events.length →
      isolateHalf inner (isolateFuel inner (events.length - 1)) l = isolateHalf inner (isolate inner) l :=
    fun l hne hl => isolateHalf_congr (isolateFuel_enough _ l.length l hne (by omega) (Nat.le_refl _))
  obtain ⟨k, hk⟩ : ∃ k, events.length = k + 1 := ⟨events.length - 1, by omega⟩
  rw [← half _ h₁ hl₁, ← half _ h₂ hl₂, isolate, hk, Nat.add_sub_cancel, isolateFuel_succ h, hk]

/-- `Manager.WrapSink`. -/
def dlqSink (inner : Sink V) : Sink V where
  name := inner.name
  maxBatchEvents := inner.maxBatchEvents
  process events := do
    match events with
    | [] => return none
    | first :: _ =>
      match ← inner.process events with
      | none =>
        ask (.clearFailures inner.name (events.map (·.id)))
        return none
      | some err =>
        if ← stalls err then return some err
        if !err.isPermanent then
          let (_, _, reached) ← ask (.recordFailure inner.name first.id)
          if !reached then return some err
        isolate inner events err

end Gtc
