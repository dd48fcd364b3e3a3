/-
`dlq.Sink` over an inner sink that answers as it likes, call by call: what one
`Process` delivers, what it parks, and how many calls that takes.

A batch that has to be split costs two calls, one for each half. The batches
that are split hold a poison event each, and those of one depth are disjoint,
so no depth has more of them than there are poison events; a batch of `n`
events can be halved `⌈log₂ n⌉` times.
-/
import Gtc.Sink.Dlq
import Mathlib.Data.Nat.Log

namespace Gtc

open Lib

variable {V : Type}

/-! ## The sink on the bench -/

/-- What surrounds the sink. Each answer may depend on how many calls the inner
`Process` has had. -/
structure BenchEnv (V : Type) where
  /-- What the inner `Process` returns. -/
  answer : ℕ → List (CDCEvent V) → Option Err
  /-- What `Store.Park` returns. -/
  parkErr : ℕ → Option Err
  ctxDone : ℕ → Bool
  now : ℕ → ℕ

structure Bench (V : Type) where
  failures : Failures := fun _ => none
  /-- Entries stored in the dead-letter queue, in order. -/
  parked : List (DeadLetterEntry V) := []
  /-- The calls of the inner `Process`, in order, with what they returned. -/
  calls : List (List (CDCEvent V) × Option Err) := []

namespace Bench

/-- How the sink's operations are answered, with the manager's `threshold`. The
inner sink is called as it is, so nothing asks for a breaker. -/
def handle (threshold : ℕ) (env : BenchEnv V) (b : Bench V) : (o : Op V) → o.Res × Bench V
  | .process _ events =>
    (env.answer b.calls.length events, { b with calls := b.calls ++ [(events, env.answer b.calls.length events)] })
  | .park entry =>
    (env.parkErr b.calls.length,
      { b with parked := b.parked ++ if env.parkErr b.calls.length = none then [entry] else [] })
  | .ctxErr => (env.ctxDone b.calls.length, b)
  | .backoff _ => (env.ctxDone b.calls.length, b)
  | .beforeRequest _ => (.ok 0, b)
  | .afterRequest _ _ _ => ((), b)
  | .recordFailure sink eventID =>
    let answer := b.failures.recordFailure threshold (env.now b.calls.length) sink eventID
    (answer.1, { b with failures := answer.2 })
  | .failureInfo sink eventID => (b.failures.failureInfo (env.now b.calls.length) sink eventID, b)
  | .clearFailure sink eventID => ((), { b with failures := b.failures.clearFailure sink eventID })
  | .clearFailures sink eventIDs => ((), { b with failures := b.failures.clearFailures sink eventIDs })
  | .now => (env.now b.calls.length, b)

/-- Runs a program of the sink layers on the bench. -/
def exec {α : Type} (threshold : ℕ) (env : BenchEnv V) (p : SinkM V α) (b : Bench V) : α × Bench V :=
  runWith (handle threshold env) p b

/-- The events of the calls that returned nil. -/
def accepted (b : Bench V) : List (CDCEvent V) := (b.calls.filter (·.2.isNone)).flatMap (·.1)

def parkedEvents (b : Bench V) : List (CDCEvent V) := b.parked.map (·.event)

end Bench

/-- The inner sink fails exactly on the batches with a poison event in them, and
never as a sink that is down or slow does; the context is live and the store
accepts entries. -/
structure BenchEnv.Poison (env : BenchEnv V) (poison : CDCEvent V → Bool) : Prop where
  answer : ∀ n batch, (env.answer n batch).isSome = batch.any poison
  circuitOpen : ∀ n batch err, env.answer n batch = some err → err.is .circuitOpen = false
  deadlineExceeded : ∀ n batch err, env.answer n batch = some err → err.is .deadlineExceeded = false
  ctxDone : ∀ n, env.ctxDone n = false
  parkErr : ∀ n, env.parkErr n = none

/-- The sink, its inner sink being whatever the bench says. -/
def benchSink (name : String) : Sink V := dlqSink (destination name 0)

/-! ## One call -/

namespace Bench

/-- The bench after a call of the inner `Process`. -/
def called (env : BenchEnv V) (events : List (CDCEvent V)) (b : Bench V) : Bench V :=
  { b with calls := b.calls ++ [(events, env.answer b.calls.length events)] }

/-- The bench after the failure records of some events were cleared. -/
def cleared (name : String) (events : List (CDCEvent V)) (b : Bench V) : Bench V :=
  { b with failures := b.failures.clearFailures name (events.map (·.id)) }

/-- What it takes to deal with every event of a batch: the poison events are
parked, the others accepted, each in order. -/
structure Deals (poison : CDCEvent V → Bool) (events : List (CDCEvent V)) (cost : ℕ) (b b' : Bench V) : Prop where
  parked : b'.parkedEvents = b.parkedEvents ++ events.filter poison
  accepted : b'.accepted = b.accepted ++ events.filter fun e => !poison e
  calls : b'.calls.length ≤ b.calls.length + cost

variable {events : List (CDCEvent V)} {b : Bench V}

theorem Deals.append {poison : CDCEvent V → Bool} {events' : List (CDCEvent V)} {cost cost' : ℕ} {b' b'' : Bench V}
    (h : Deals poison events cost b b') (h' : Deals poison events' cost' b' b'') :
    Deals poison (events ++ events') (cost + cost') b b'' where
  parked := by rw [h'.parked, h.parked, List.filter_append, List.append_assoc]
  accepted := by rw [h'.accepted, h.accepted, List.filter_append, List.append_assoc]
  calls := by
    have := h.calls
    have := h'.calls
    omega

theorem accepted_called_none {env : BenchEnv V}
    (h : env.answer b.calls.length events = none) : (b.called env events).accepted = b.accepted ++ events := by
  simp [accepted, called, h]

theorem accepted_called_some {env : BenchEnv V} {err : Err}
    (h : env.answer b.calls.length events = some err) : (b.called env events).accepted = b.accepted := by
  simp [accepted, called, h]

section Calls

variable {threshold : ℕ} {env : BenchEnv V} {name : String} {poison : CDCEvent V → Bool} {α β : Type}

variable {b : Bench V} {events : List (CDCEvent V)} {err : Err}

@[simp] theorem exec_pure {a : α} : b.exec threshold env (pure a) = (a, b) := rfl

@[simp] theorem exec_bind {p : SinkM V α} {f : α → SinkM V β} :
    b.exec threshold env (p >>= f) =
      (b.exec threshold env p).2.exec threshold env (f (b.exec threshold env p).1) := runWith_bind

@[simp] theorem exec_call (events : List (CDCEvent V)) (b : Bench V) :
    b.exec threshold env ((destination name 0).process events) =
      (env.answer b.calls.length events, b.called env events) := rfl

-- What each operation does, in the form `simp` meets it.
section Operations

variable (b : Bench V)

@[simp] theorem exec_storePark (entry : DeadLetterEntry V) : exec (α := Option Err) threshold env (ask (.park entry)) b =
    (env.parkErr b.calls.length,
      { b with parked := b.parked ++ if env.parkErr b.calls.length = none then [entry] else [] }) := rfl

@[simp] theorem exec_ctxErr : exec (α := Bool) threshold env (ask .ctxErr) b = (env.ctxDone b.calls.length, b) := rfl

@[simp] theorem exec_recordFailure (eventID : String) :
    exec (α := ℕ × ℕ × Bool) threshold env (ask (.recordFailure name eventID)) b =
      ((b.failures.recordFailure threshold (env.now b.calls.length) name eventID).1,
        { b with failures := (b.failures.recordFailure threshold (env.now b.calls.length) name eventID).2 }) := rfl

@[simp] theorem exec_failureInfo (eventID : String) : exec (α := ℕ × ℕ) threshold env (ask (.failureInfo name eventID)) b =
    (b.failures.failureInfo (env.now b.calls.length) name eventID, b) := rfl

@[simp] theorem exec_clearFailure (eventID : String) : exec (α := Unit) threshold env (ask (.clearFailure name eventID)) b =
    ((), { b with failures := b.failures.clearFailure name eventID }) := rfl

@[simp] theorem exec_clearFailures (events : List (CDCEvent V)) :
    exec (α := Unit) threshold env (ask (.clearFailures name (events.map (·.id)))) b = ((), b.cleared name events) := rfl

@[simp] theorem exec_now : exec (α := ℕ) threshold env (ask .now) b = (env.now b.calls.length, b) := rfl

end Operations

/-- No poison in the batch: it is accepted. -/
theorem answer_none (henv : env.Poison poison) (h : events.any poison = false) (n : ℕ) : env.answer n events = none :=
  Option.isNone_iff_eq_none.mp (by rw [← Option.not_isSome, henv.answer, h]; rfl)

theorem answer_some (henv : env.Poison poison) (h : events.any poison = true) (n : ℕ) :
    ∃ err, env.answer n events = some err :=
  Option.isSome_iff_exists.mp (by rw [henv.answer, h])

/-- A batch that is accepted has no poison to park. -/
theorem deals_accepted (name : String) (henv : env.Poison poison) (hany : events.any poison = false) (b : Bench V) :
    Deals poison events 1 b ((b.called env events).cleared name events) where
  parked := by
    have hnone : events.filter poison = [] := List.filter_eq_nil_iff.mpr (by simpa using hany)
    rw [hnone, List.append_nil]
    rfl
  accepted := by
    rw [List.filter_eq_self.mpr (by simpa using hany)]
    exact accepted_called_none (answer_none henv hany b.calls.length)
  calls := by simp [cleared, called]

/-- A call that fails adds one to the cost. -/
theorem Deals.after_failed {cost : ℕ} {b' : Bench V}
    (hanswer : env.answer b.calls.length events = some err) (h : Deals poison events cost (b.called env events) b') :
    Deals poison events (1 + cost) b b' where
  parked := h.parked
  accepted := by rw [h.accepted, accepted_called_some hanswer]
  calls := by
    have := h.calls
    simp only [called, List.length_append, List.length_singleton] at this
    omega

theorem exec_stalls (henv : env.Poison poison) {n : ℕ}
    (h : env.answer n events = some err) (b : Bench V) : b.exec threshold env (stalls err) = (false, b) := by
  simp only [stalls, henv.circuitOpen _ _ _ h, henv.deadlineExceeded _ _ _ h, Bool.false_eq_true, if_false,
    exec_ctxErr, henv.ctxDone]

/-- A poison event on its own is parked, without another call. -/
theorem exec_park (threshold : ℕ) (name : String) (henv : env.Poison poison) {event : CDCEvent V}
    (h : poison event = true) (cause : Err) (b : Bench V) :
    ∃ b', b.exec threshold env (park (destination name 0) event cause) = (none, b') ∧ Deals poison [event] 0 b b' := by
  have hrun : ∃ entry : DeadLetterEntry V, entry.event = event ∧
      b.exec threshold env (park (destination name 0) event cause) =
        (none, { b with failures := b.failures.clearFailure name event.id, parked := b.parked ++ [entry] }) := by
    simp only [park, managerPark, exec_bind, destination, exec_failureInfo, exec_now, exec_storePark, henv.parkErr, if_true,
      exec_clearFailure, exec_pure]
    exact ⟨_, rfl, rfl⟩
  obtain ⟨entry, rfl, hrun⟩ := hrun
  refine ⟨_, hrun, ?_, ?_, ?_⟩
  · simp [parkedEvents, h]
  · simp [accepted, h]
  · exact Nat.le_refl _

/-! ## Bisection -/

/-- Two calls for each depth and each poison event. -/
def bisectionCost (poison : CDCEvent V → Bool) (events : List (CDCEvent V)) : ℕ :=
  2 * (events.filter poison).length * Nat.clog 2 events.length

/-- One half costs a call, and its own bisection if that fails. -/
theorem isolateHalf_deals (name : String) (henv : env.Poison poison) {isolate : List (CDCEvent V) → Err → SinkM V (Option Err)}
    {half : List (CDCEvent V)}
    (hrec : half.any poison = true → ∀ (err : Err) (b : Bench V),
      ∃ b', b.exec threshold env (isolate half err) = (none, b') ∧ Deals poison half (bisectionCost poison half) b b')
    (b : Bench V) :
    ∃ b', b.exec threshold env (isolateHalf (destination name 0) isolate half) = (none, b') ∧
      Deals poison half (1 + bisectionCost poison half) b b' := by
  cases hany : half.any poison with
  | false =>
    have hanswer := answer_none henv hany b.calls.length
    have hdeals := deals_accepted name henv hany b
    refine ⟨_, ?_, hdeals.parked, hdeals.accepted, hdeals.calls.trans (by omega)⟩
    simp only [isolateHalf, exec_bind, exec_call, hanswer, exec_clearFailures, exec_pure]
    rfl
  | true =>
    obtain ⟨err, hanswer⟩ := answer_some henv hany b.calls.length
    obtain ⟨b', hrun, hdeals⟩ := hrec hany err (b.called env half)
    refine ⟨b', ?_, hdeals.after_failed hanswer⟩
    simp only [isolateHalf, exec_bind, exec_call, hanswer, exec_stalls henv hanswer, Bool.false_eq_true, if_false, hrun]

/-- The halves of a batch with poison in it, at one depth less each, cost no more
than the batch. -/
theorem bisectionCost_halves (htwo : 2 ≤ events.length) (hany : events.any poison = true) :
    1 + bisectionCost poison (events.take (events.length / 2)) +
      (1 + bisectionCost poison (events.drop (events.length / 2))) ≤ bisectionCost poison events := by
  have hdepth : Nat.clog 2 events.length = Nat.clog 2 ((events.length + 1) / 2) + 1 :=
    Nat.clog_of_two_le (by omega) htwo
  have hfirst : Nat.clog 2 (events.take (events.length / 2)).length ≤ Nat.clog 2 ((events.length + 1) / 2) :=
    Nat.clog_mono_right 2 (by rw [List.length_take]; omega)
  have hsecond : Nat.clog 2 (events.drop (events.length / 2)).length ≤ Nat.clog 2 ((events.length + 1) / 2) :=
    Nat.clog_mono_right 2 (by rw [List.length_drop]; omega)
  have hsplit : (events.filter poison).length = ((events.take (events.length / 2)).filter poison).length +
      ((events.drop (events.length / 2)).filter poison).length := by
    rw [← List.length_append, ← List.filter_append, List.take_append_drop]
  have hpos : 0 < (events.filter poison).length := by
    obtain ⟨e, he, hp⟩ := List.any_eq_true.mp hany
    exact List.length_pos_of_mem (List.mem_filter.mpr ⟨he, hp⟩)
  simp only [bisectionCost]
  have h₁ := Nat.mul_le_mul_left (2 * ((events.take (events.length / 2)).filter poison).length) hfirst
  have h₂ := Nat.mul_le_mul_left (2 * ((events.drop (events.length / 2)).filter poison).length) hsecond
  rw [hdepth, Nat.mul_add_one]
  have hsum : 2 * (events.filter poison).length * Nat.clog 2 ((events.length + 1) / 2) =
      2 * ((events.take (events.length / 2)).filter poison).length * Nat.clog 2 ((events.length + 1) / 2) +
        2 * ((events.drop (events.length / 2)).filter poison).length * Nat.clog 2 ((events.length + 1) / 2) := by
    rw [hsplit, Nat.mul_add, Nat.add_mul]
  omega

/-- Bisection deals with every event of a batch that has poison in it. -/
theorem isolateFuel_deals (henv : env.Poison poison) : ∀ (fuel : ℕ) (events : List (CDCEvent V)), events.length ≤ fuel →
    events.any poison = true → ∀ (err : Err) (b : Bench V),
    ∃ b', b.exec threshold env (isolateFuel (destination name 0) fuel events err) = (none, b') ∧
      Deals poison events (bisectionCost poison events) b b' := by
  intro fuel
  induction fuel with
  | zero =>
    intro events hle hany
    obtain rfl : events = [] := List.length_eq_zero_iff.mp (by omega)
    cases hany
  | succ fuel ih =>
    intro events hle hany err b
    match events with
    | [] => cases hany
    | [event] =>
      obtain ⟨b', hrun, hdeals⟩ := exec_park threshold name henv (by simpa using hany) err b
      exact ⟨b', hrun, by simpa [bisectionCost] using hdeals⟩
    | a :: a' :: rest =>
      have htwo : 2 ≤ (a :: a' :: rest).length := by simp
      obtain ⟨⟨-, hl₁⟩, -, hl₂⟩ := halves_shorter htwo
      obtain ⟨b₁, hrun₁, hdeals₁⟩ := isolateHalf_deals name henv (ih _ (Nat.le_of_lt_succ (hl₁.trans_le hle))) b
      obtain ⟨b₂, hrun₂, hdeals₂⟩ := isolateHalf_deals name henv (ih _ (Nat.le_of_lt_succ (hl₂.trans_le hle))) b₁
      refine ⟨b₂, by rw [isolateFuel_succ htwo, exec_bind, hrun₁, hrun₂], ?_⟩
      have hdeals := hdeals₁.append hdeals₂
      rw [List.take_append_drop] at hdeals
      exact ⟨hdeals.parked, hdeals.accepted, hdeals.calls.trans (Nat.add_le_add_left (bisectionCost_halves htwo hany) _)⟩

/-! ## One `Process` -/

/-- A batch without poison is delivered. -/
theorem process_clean (threshold : ℕ) (name : String) (henv : env.Poison poison) (hne : events ≠ [])
    (hany : events.any poison = false) (b : Bench V) :
    b.exec threshold env ((benchSink name).process events) = (none, (b.called env events).cleared name events) := by
  have hanswer := answer_none henv hany b.calls.length
  cases events with
  | nil => exact absurd rfl hne
  | cons first rest =>
    simp only [benchSink, dlqSink, exec_bind, exec_call, hanswer, exec_clearFailures, exec_pure]
    rfl

/-- A permanent error is isolated at once. -/
theorem process_permanent (henv : env.Poison poison)
    (hanswer : env.answer b.calls.length events = some err) (hperm : err.isPermanent = true) :
    b.exec threshold env ((benchSink name).process events) =
      (b.called env events).exec threshold env (isolate (destination name 0) events err) := by
  cases events with
  | nil =>
    have hfails := henv.answer b.calls.length []
    rw [hanswer] at hfails
    cases hfails
  | cons first rest =>
    simp only [benchSink, dlqSink, exec_bind, exec_call, hanswer, exec_stalls henv hanswer, hperm, Bool.not_true,
      Bool.false_eq_true, if_false]

/-- What bisection does, after the call that failed. -/
theorem isolate_deals (threshold : ℕ) (name : String) (henv : env.Poison poison)
    (hanswer : env.answer b.calls.length events = some err) :
    ∃ b', (b.called env events).exec threshold env (isolate (destination name 0) events err) = (none, b') ∧
      Deals poison events (1 + bisectionCost poison events) b b' := by
  have hany : events.any poison = true := by rw [← henv.answer b.calls.length, hanswer]; rfl
  obtain ⟨b', hrun, hdeals⟩ := isolateFuel_deals henv _ events (Nat.le_refl _) hany err (b.called env events)
  exact ⟨b', hrun, hdeals.after_failed hanswer⟩

end Calls

end Bench

section Poison

variable {threshold : ℕ} {env : BenchEnv V} {name : String} {poison : CDCEvent V → Bool}

/-- **Bisection parks exactly the poison events, at logarithmic cost**: when the
inner sink fails, with a permanent error that does not stall, exactly on the
batches with poison in them, `Process` returns nil, the poison events are the
ones parked, the rest is what the inner sink accepted, and it had at most
`1 + 2 · |poison| · ⌈log₂ n⌉` calls. -/
theorem bisection_parks_poison (henv : env.Poison poison)
    (hperm : ∀ n batch err, env.answer n batch = some err → err.isPermanent = true) (events : List (CDCEvent V))
    (failures : Failures) :
    ∃ b : Bench V, Bench.exec threshold env ((benchSink name).process events) { failures } = (none, b) ∧
      b.parkedEvents = events.filter poison ∧ b.accepted = (events.filter fun e => !poison e) ∧
      b.calls.length ≤ 1 + 2 * (events.filter poison).length * Nat.clog 2 events.length := by
  suffices h : ∃ b : Bench V, Bench.exec threshold env ((benchSink name).process events) { failures } = (none, b) ∧
      Bench.Deals poison events (1 + Bench.bisectionCost poison events) { failures } b by
    obtain ⟨b, hrun, hdeals⟩ := h
    exact ⟨b, hrun, hdeals.parked, hdeals.accepted, by simpa [Bench.bisectionCost] using hdeals.calls⟩
  cases hanswer : env.answer 0 events with
  | some err =>
    have hstart : env.answer (Bench.calls (V := V) { failures }).length events = some err := hanswer
    rw [Bench.process_permanent henv hstart (hperm _ _ _ hanswer)]
    exact Bench.isolate_deals threshold name henv hstart
  | none =>
    have hany : events.any poison = false := by rw [← henv.answer 0, hanswer]; rfl
    have hdeals := Bench.deals_accepted name henv hany { failures }
    by_cases hne : events = []
    · subst hne
      exact ⟨_, rfl, rfl, rfl, by simp⟩
    · exact ⟨_, Bench.process_clean threshold name henv hne hany _, hdeals.parked, hdeals.accepted, hdeals.calls.trans (by omega)⟩

end Poison

/-! ### A batch of three -/

/-- Rejects the batches with poison in them, always with the same error. -/
def rejects (poison : CDCEvent V → Bool) (err : Err) : BenchEnv V where
  answer _ batch := if batch.any poison then some err else none
  parkErr _ := none
  ctxDone _ := false
  now n := n

section Rejects

variable {poison : CDCEvent V → Bool} {err : Err} {n : ℕ} {batch : List (CDCEvent V)}

theorem rejects_isSome : ((rejects poison err).answer n batch).isSome = batch.any poison := by
  simp only [rejects]
  split <;> simp_all

theorem rejects_eq_some {err' : Err} (h : (rejects poison err).answer n batch = some err') : err' = err := by
  simp only [rejects, Option.ite_none_right_eq_some, Option.some.injEq] at h
  exact h.2.symm

theorem rejects_poison (hcircuit : err.is .circuitOpen = false) (hdeadline : err.is .deadlineExceeded = false) :
    (rejects poison err).Poison poison where
  answer _ _ := rejects_isSome
  circuitOpen n batch err' h := by rw [rejects_eq_some h, hcircuit]
  deadlineExceeded n batch err' h := by rw [rejects_eq_some h, hdeadline]
  ctxDone _ := rfl
  parkErr _ := rfl

end Rejects

def threeEvents : List (CDCEvent ℕ) := [bareEvent "0/1", bareEvent "0/2", bareEvent "0/3"]

def isThird (e : CDCEvent ℕ) : Bool := e.id == "0/3"

/-- The third of three events is poison: there may be five calls. -/
theorem bisection_parks_third :
    ∃ b : Bench ℕ, Bench.exec 3 (rejects isThird (.permanent (.new "rejected"))) ((benchSink "s").process threeEvents) {} = (none, b) ∧
      b.parkedEvents = [bareEvent "0/3"] ∧ b.accepted = [bareEvent "0/1", bareEvent "0/2"] ∧ b.calls.length ≤ 5 := by
  have hperm : ∀ n batch err, (rejects isThird (.permanent (.new "rejected"))).answer n batch = some err → err.isPermanent = true := by
    intro n batch err h
    rw [rejects_eq_some h]
    decide
  exact bisection_parks_poison (rejects_poison (by decide) (by decide)) hperm threeEvents _

/-- A permanent error that is a timeout as well: `stalls` looks first, and
`Process` returns it. -/
theorem permanent_timeout_stalls :
    (Err.permanent .deadlineExceeded).isPermanent = true ∧
      (∀ n batch, ((rejects isThird (.permanent .deadlineExceeded)).answer n batch).isSome = batch.any isThird) ∧
      (Bench.exec 3 (rejects isThird (.permanent .deadlineExceeded)) ((benchSink "s").process threeEvents) {}).1 =
        some (.permanent .deadlineExceeded) ∧
      (Bench.exec 3 (rejects isThird (.permanent .deadlineExceeded)) ((benchSink "s").process threeEvents) {}).2.parkedEvents = [] :=
  ⟨by decide, fun _ _ => rejects_isSome, by decide, by decide⟩

end Gtc
