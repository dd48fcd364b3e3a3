/-
A destination that is down, seen from the dead-letter sink over the resilient
sink: every attempt fails with a non-permanent error, the breaker follows
`gobreaker`, the failure records follow the manager.

The documentation promises that outages never divert to the DLQ. Two counters
decide that: the DLQ counts the deliveries that failed on a batch's first
event, the breaker counts consecutive failed requests. `Diverts` is exactly
when a delivery parks: its failure is the one that reaches the DLQ threshold,
and none of the `log₂ n` further requests with which bisection narrows `n`
events down to the first one is rejected. With one event there is nothing to
narrow, so no breaker can prevent it.
-/
import Gtc.Sink.Dlq
import Gtc.Sink.Resilience
import Mathlib.Data.Nat.Log

namespace Gtc

open Lib

variable {V : Type}

/-! ## The world of an outage -/

/-- What one request through the breaker meets while the destination is down. -/
structure RequestEnv where
  /-- Has the open breaker's timeout passed? -/
  expired : Bool
  /-- The error of each attempt. -/
  errs : ℕ → Err
  /-- Is the context done when the retry loop looks, after each attempt? -/
  ctxDone : ℕ → Bool
  /-- Does the context end the wait after each attempt? -/
  waitEnded : ℕ → Bool
  /-- Is the context done when `stalls` looks? -/
  ctxDoneAfter : Bool

/-- What one delivery meets: its requests in order, the store, the clock. -/
structure DeliveryEnv where
  requests : ℕ → RequestEnv
  parkErr : ℕ → Option Err
  now : ℕ

/-- The destination is down: no attempt succeeds or blames the data. -/
def DeliveryEnv.Down (env : DeliveryEnv) : Prop := ∀ j i, ((env.requests j).errs i).isPermanent = false

/-- The state behind the operations of one sink. -/
structure Outage (V : Type) where
  breaker : Breaker
  failures : Failures
  /-- Entries stored in the dead-letter queue, in order. -/
  parked : List (DeadLetterEntry V)
  /-- Requests, attempts of the request, and `Park` calls of this delivery. -/
  request : ℕ
  attempt : ℕ
  parks : ℕ
  inRequest : Bool

/-- The request in progress, or the last one. -/
def Outage.current (w : Outage V) (env : DeliveryEnv) : RequestEnv := env.requests (w.request - 1)

/-- How the world answers during an outage, with the manager's `threshold`. -/
def Outage.handle (threshold : ℕ) (env : DeliveryEnv) (w : Outage V) : (o : Op V) → o.Res × Outage V
  | .process _ _ => (some ((w.current env).errs w.attempt), w)
  | .park entry =>
    (env.parkErr w.parks,
      { w with parks := w.parks + 1, parked := w.parked ++ if env.parkErr w.parks = none then [entry] else [] })
  | .ctxErr => (if w.inRequest then (w.current env).ctxDone w.attempt else (w.current env).ctxDoneAfter, w)
  | .backoff _ => ((w.current env).waitEnded w.attempt, { w with attempt := w.attempt + 1 })
  | .beforeRequest _ =>
    let answer := w.breaker.beforeRequest (env.requests w.request).expired
    (answer.1, { w with breaker := answer.2, request := w.request + 1, attempt := 0, inRequest := answer.1.isOk })
  | .afterRequest _ generation success =>
    ((), { w with breaker := w.breaker.afterRequest generation success, inRequest := false })
  | .recordFailure sink eventID =>
    let answer := w.failures.recordFailure threshold env.now sink eventID
    (answer.1, { w with failures := answer.2 })
  | .failureInfo sink eventID => (w.failures.failureInfo env.now sink eventID, w)
  | .clearFailure sink eventID => ((), { w with failures := w.failures.clearFailure sink eventID })
  | .clearFailures sink eventIDs => ((), { w with failures := w.failures.clearFailures sink eventIDs })
  | .now => (env.now, w)

/-- Runs a program of the sink layers in that world. -/
def Outage.exec {α : Type} (threshold : ℕ) (env : DeliveryEnv) (p : SinkM V α) (w : Outage V) : α × Outage V :=
  runWith (Outage.handle threshold env) p w

/-- A batch the stream delivers, or delivers again, during the outage. -/
structure Delivery (V : Type) where
  events : List (CDCEvent V)
  env : DeliveryEnv

/-- The sink under the registry: dead-lettering over resilience over a
destination. -/
def stack (name : String) (limit maxRetries : Int) : Sink V := dlqSink (resilientSink (destination name limit) maxRetries)

/-- One `Process` of the stack. -/
def Outage.deliver (threshold : ℕ) (sink : Sink V) (w : Outage V) (d : Delivery V) : Outage V :=
  (Outage.exec threshold d.env (sink.process d.events)
    { w with request := 0, attempt := 0, parks := 0, inRequest := false }).2

def Outage.run (threshold : ℕ) (sink : Sink V) (ds : List (Delivery V)) (w : Outage V) : Outage V :=
  ds.foldl (Outage.deliver threshold sink) w

/-! ## One request -/

/-- The attempt whose error a request returns: the last of `left` more, or the
one at which the context cuts the loop. -/
def RequestEnv.lastAttempt (e : RequestEnv) : ℕ → ℕ → ℕ
  | i, 0 => i
  | i, left + 1 => if e.ctxDone i || e.waitEnded i then i else e.lastAttempt (i + 1) left

/-- How `ResilientSink.Process` reports an error of `Execute`. -/
def reported (err : Err) : Err :=
  if err.is .openState || err.is .tooManyRequests then .wrap (Err.error .circuitOpen ++ ": " ++ err.error) .circuitOpen
  else err

/-- What a request comes to while the destination is down: the error, and the
breaker after it. -/
def Breaker.request (b : Breaker) (retries : ℕ) (e : RequestEnv) : Err × Breaker :=
  match b.beforeRequest e.expired with
  | (.error err, b) => (reported err, b)
  | (.ok generation, b) =>
    let err := e.errs (e.lastAttempt 0 retries)
    (reported err, b.afterRequest generation (isSuccessful (some err)))

/-- `stalls` for a request's error. -/
def RequestEnv.stalled (e : RequestEnv) (err : Err) : Bool :=
  err.is .circuitOpen || err.is .deadlineExceeded || e.ctxDoneAfter

section Requests

variable {threshold : ℕ} {env : DeliveryEnv} {name : String} {limit maxRetries : Int} {α β : Type}

@[simp] theorem exec_pure_world {a : α} {w : Outage V} : w.exec threshold env (pure a) = (a, w) := rfl

@[simp] theorem exec_bind_world {p : SinkM V α} {f : α → SinkM V β} {w : Outage V} :
    w.exec threshold env (p >>= f) =
      (w.exec threshold env p).2.exec threshold env (f (w.exec threshold env p).1) := runWith_bind

-- What each operation does, in the form `simp` meets it.
section Operations

variable (w : Outage V)

@[simp] theorem exec_process (events : List (CDCEvent V)) : Outage.exec (α := Option Err) threshold env (ask (.process name events)) w =
    (some ((w.current env).errs w.attempt), w) := rfl

@[simp] theorem exec_park (entry : DeadLetterEntry V) : Outage.exec (α := Option Err) threshold env (ask (.park entry)) w =
    (env.parkErr w.parks,
      { w with parks := w.parks + 1, parked := w.parked ++ if env.parkErr w.parks = none then [entry] else [] }) := rfl

@[simp] theorem exec_ctxErr : Outage.exec (α := Bool) threshold env (ask .ctxErr) w =
    (if w.inRequest then (w.current env).ctxDone w.attempt else (w.current env).ctxDoneAfter, w) := rfl

@[simp] theorem exec_backoff : Outage.exec (α := Bool) threshold env (ask (.backoff name)) w =
    ((w.current env).waitEnded w.attempt, { w with attempt := w.attempt + 1 }) := rfl

@[simp] theorem exec_beforeRequest : Outage.exec (α := Except Err ℕ) threshold env (ask (.beforeRequest name)) w =
    ((w.breaker.beforeRequest (env.requests w.request).expired).1,
      { w with breaker := (w.breaker.beforeRequest (env.requests w.request).expired).2, request := w.request + 1,
               attempt := 0, inRequest := (w.breaker.beforeRequest (env.requests w.request).expired).1.isOk }) := rfl

@[simp] theorem exec_afterRequest (generation : ℕ) (success : Bool) :
    Outage.exec (α := Unit) threshold env (ask (.afterRequest name generation success)) w =
      ((), { w with breaker := w.breaker.afterRequest generation success, inRequest := false }) := rfl

@[simp] theorem exec_recordFailure (eventID : String) : Outage.exec (α := ℕ × ℕ × Bool) threshold env (ask (.recordFailure name eventID)) w =
    ((w.failures.recordFailure threshold env.now name eventID).1,
      { w with failures := (w.failures.recordFailure threshold env.now name eventID).2 }) := rfl

@[simp] theorem exec_failureInfo (eventID : String) : Outage.exec (α := ℕ × ℕ) threshold env (ask (.failureInfo name eventID)) w =
    (w.failures.failureInfo env.now name eventID, w) := rfl

@[simp] theorem exec_clearFailure (eventID : String) : Outage.exec (α := Unit) threshold env (ask (.clearFailure name eventID)) w =
    ((), { w with failures := w.failures.clearFailure name eventID }) := rfl

@[simp] theorem exec_now : Outage.exec (α := ℕ) threshold env (ask .now) w = (env.now, w) := rfl

end Operations

theorem retryLoop_run (hdown : env.Down) (events : List (CDCEvent V)) :
    ∀ (left : ℕ) (lastErr : Option Err) (w : Outage V), w.inRequest = true →
      ∃ a, w.exec threshold env (retryLoop (destination name limit) events lastErr (left + 1)) =
        (some ((w.current env).errs ((w.current env).lastAttempt w.attempt left)), { w with attempt := a }) := by
  intro left
  induction left with
  | zero =>
    intro lastErr w hw
    have hperm : ((w.current env).errs w.attempt).isPermanent = false := hdown _ _
    exact ⟨w.attempt, by simp [retryLoop, destination, hperm, RequestEnv.lastAttempt]⟩
  | succ left ih =>
    intro lastErr w hw
    have hperm : ((w.current env).errs w.attempt).isPermanent = false := hdown _ _
    have hlook : Outage.exec (α := Bool) threshold env (ask .ctxErr) w = ((w.current env).ctxDone w.attempt, w) := by
      simp [hw]
    rw [retryLoop]
    by_cases hctx : (w.current env).ctxDone w.attempt = true
    · exact ⟨w.attempt, by simp [destination, hlook, hperm, hctx, RequestEnv.lastAttempt, -exec_ctxErr]⟩
    · by_cases hwait : (w.current env).waitEnded w.attempt = true
      · exact ⟨w.attempt + 1,
          by simp [destination, hlook, hperm, hctx, hwait, RequestEnv.lastAttempt, -exec_ctxErr]⟩
      · obtain ⟨a, ha⟩ := ih (some ((w.current env).errs w.attempt)) { w with attempt := w.attempt + 1 } hw
        change _ = (some ((w.current env).errs ((w.current env).lastAttempt (w.attempt + 1) left)), _) at ha
        refine ⟨a, ?_⟩
        simpa [destination, hlook, hperm, hctx, hwait, RequestEnv.lastAttempt, -exec_ctxErr] using ha

theorem beforeRequest_error {b : Breaker} {expired : Bool} {err : Err} (h : (b.beforeRequest expired).1 = .error err) :
    err = .openState ∨ err = .tooManyRequests := by
  unfold Breaker.beforeRequest at h
  dsimp only at h
  split at h
  · cases h; exact .inl rfl
  · split at h
    · cases h; exact .inr rfl
    · cases h

/-- **One request through the resilient sink**: what it returns, and that
nothing but the breaker changes. -/
theorem resilientSink_run (hm : 0 ≤ maxRetries) (hdown : env.Down) {events : List (CDCEvent V)} (hne : events ≠ [])
    (w : Outage V) :
    ∃ a, w.exec threshold env ((resilientSink (destination name limit) maxRetries).process events) =
      (some (w.breaker.request maxRetries.toNat (env.requests w.request)).1,
        { w with breaker := (w.breaker.request maxRetries.toNat (env.requests w.request)).2,
                 request := w.request + 1, attempt := a, inRequest := false }) := by
  have hret : (maxRetries + 1).toNat = maxRetries.toNat + 1 := by omega
  have hempty : events.isEmpty = false := by simpa using hne
  simp only [resilientSink, hempty, Bool.false_eq_true, if_false, execute, processWithRetry, hret, exec_bind_world,
    exec_beforeRequest, Breaker.request]
  cases hb : w.breaker.beforeRequest (env.requests w.request).expired with
  | mk answer b =>
    cases answer with
    | error err =>
      have hopen : (err.is .openState || err.is .tooManyRequests) = true := by
        rcases beforeRequest_error (congrArg Prod.fst hb) with rfl | rfl <;> rfl
      refine ⟨0, ?_⟩
      simp [reported, hopen, Except.isOk, Except.toBool]
    | ok generation =>
      obtain ⟨a, ha⟩ := @retryLoop_run V threshold env name limit hdown events maxRetries.toNat none
        { w with breaker := b, request := w.request + 1, attempt := 0, inRequest := true } rfl
      change _ = (some ((env.requests w.request).errs ((env.requests w.request).lastAttempt 0 maxRetries.toNat)), _) at ha
      refine ⟨a, ?_⟩
      simp only [Except.isOk, Except.toBool, exec_bind_world, ha, exec_afterRequest, exec_pure_world, reported]
      split <;> rfl

theorem stalls_run (err : Err) {w : Outage V} (hw : w.inRequest = false) :
    w.exec threshold env (stalls err) = ((w.current env).stalled err, w) := by
  unfold stalls RequestEnv.stalled
  by_cases hopen : err.is .circuitOpen = true
  · simp [hopen]
  · by_cases hdead : err.is .deadlineExceeded = true
    · simp [hdead]
    · simp [hopen, hdead, hw]

/-- Entries are only ever added to the queue. -/
theorem parked_grows (p : SinkM V α) (w : Outage V) : w.parked <+: (w.exec threshold env p).2.parked := by
  induction p generalizing w with
  | ret a => exact List.prefix_refl _
  | ask o k ih =>
    refine List.IsPrefix.trans ?_ (ih _ (w.handle threshold env o).2)
    cases o <;> first | exact List.prefix_refl _ | exact List.prefix_append _ _

end Requests

/-! ## When bisection parks -/

/-- The breaker before request `k`, after the ones before it failed. -/
def Breaker.before (b : Breaker) (retries : ℕ) (requests : ℕ → RequestEnv) : ℕ → Breaker
  | 0 => b
  | k + 1 => ((b.before retries requests k).request retries (requests k)).2

/-- Request `k` neither meets an open breaker nor stalls otherwise. -/
def Breaker.Passes (b : Breaker) (retries : ℕ) (requests : ℕ → RequestEnv) (k : ℕ) : Prop :=
  (requests k).stalled ((b.before retries requests k).request retries (requests k)).1 = false

/-- **When a delivery parks during an outage**: it is the delivery that reaches
the threshold of its first event, no request stalls on the way from the batch
down to that event, and the store accepts it. -/
def Outage.Diverts (threshold : ℕ) (name : String) (retries : ℕ) (w : Outage V) (d : Delivery V) : Prop :=
  ∃ first ∈ d.events.head?, threshold ≤ w.failures.count name first.id + 1 ∧
    (∀ k ≤ Nat.log 2 d.events.length, w.breaker.Passes retries d.env.requests k) ∧ d.env.parkErr 0 = none

theorem Breaker.before_succ (b : Breaker) (retries : ℕ) (requests : ℕ → RequestEnv) (k : ℕ) :
    b.before retries requests (k + 1) = (b.request retries (requests 0)).2.before retries (fun k => requests (k + 1)) k := by
  induction k with
  | zero => rfl
  | succ k ih => rw [Breaker.before, ih]; rfl

theorem Breaker.passes_succ (b : Breaker) (retries : ℕ) (requests : ℕ → RequestEnv) (k : ℕ) :
    b.Passes retries requests (k + 1) ↔ (b.request retries (requests 0)).2.Passes retries (fun k => requests (k + 1)) k := by
  rw [Breaker.Passes, Breaker.before_succ, Breaker.Passes]

/-- The first `n + 1` requests pass when the first one does and, from the
breaker it leaves, the next `n` do. -/
theorem Breaker.forall_passes_succ (b : Breaker) (retries : ℕ) (requests : ℕ → RequestEnv) (n : ℕ) :
    (∀ k < n + 1, b.Passes retries requests k) ↔ (requests 0).stalled (b.request retries (requests 0)).1 = false ∧
      ∀ k < n, (b.request retries (requests 0)).2.Passes retries (fun k => requests (k + 1)) k := by
  rw [Nat.forall_lt_succ_left]
  simp only [Breaker.passes_succ]
  rfl

section Bisection

variable {threshold : ℕ} {env : DeliveryEnv} {name : String} {limit maxRetries : Int}

/-- What isolating from a world comes to, when `n` requests lead to the first
event: something is parked exactly when they all pass and the store accepts,
and nil is returned only if something is. -/
def Isolates (threshold : ℕ) (env : DeliveryEnv) (retries n : ℕ) (w : Outage V) (p : SinkM V (Option Err)) : Prop :=
  (w.parked.length < (w.exec threshold env p).2.parked.length ↔
    (∀ k < n, w.breaker.Passes retries (fun k => env.requests (w.request + k)) k) ∧ env.parkErr w.parks = none) ∧
  ((w.exec threshold env p).1 = none → w.parked.length < (w.exec threshold env p).2.parked.length)

theorem park_isolates (inner : Sink V) (event : CDCEvent V) (cause : Err) (retries : ℕ) (w : Outage V) :
    Isolates threshold env retries 0 w (park inner event cause) := by
  cases hp : env.parkErr w.parks with
  | none => simp [Isolates, park, managerPark, hp]
  | some err => simp [Isolates, park, managerPark, hp]

/-- A half is requested first, and isolated when that failed without stalling. -/
theorem isolateHalf_isolates (hm : 0 ≤ maxRetries) (hdown : env.Down)
    {isolate : List (CDCEvent V) → Err → SinkM V (Option Err)} {half : List (CDCEvent V)} (hne : half ≠ []) {n : ℕ}
    (hrec : ∀ err w, Isolates threshold env maxRetries.toNat n w (isolate half err)) (w : Outage V) :
    Isolates threshold env maxRetries.toNat (n + 1) w
      (isolateHalf (resilientSink (destination name limit) maxRetries) isolate half) := by
  obtain ⟨a, ha⟩ := @resilientSink_run V threshold env name limit maxRetries hm hdown half hne w
  generalize hreq : w.breaker.request maxRetries.toNat (env.requests w.request) = req at ha
  generalize hw₁ : ({ w with breaker := req.2, request := w.request + 1, attempt := a, inRequest := false } : Outage V) =
    w₁ at ha
  have hin : w₁.inRequest = false := by rw [← hw₁]
  have hcur : w₁.current env = env.requests w.request := by rw [← hw₁]; rfl
  have hparked : w₁.parked = w.parked := by rw [← hw₁]
  have hx : w.exec threshold env (isolateHalf (resilientSink (destination name limit) maxRetries) isolate half) =
      if (env.requests w.request).stalled req.1 then (some req.1, w₁)
      else w₁.exec threshold env (isolate half req.1) := by
    simp only [isolateHalf, exec_bind_world, ha, stalls_run _ hin, hcur]
    split <;> rfl
  have hfirst : env.requests (w.request + 0) = env.requests w.request := rfl
  have hahead : (fun k => env.requests (w.request + (k + 1))) = fun k => env.requests (w₁.request + k) := by
    funext k; rw [← hw₁]; congr 1; dsimp only; omega
  unfold Isolates
  rw [Breaker.forall_passes_succ, hfirst, hreq, hahead, hx, ← hparked]
  cases (env.requests w.request).stalled req.1 with
  | true => simp
  | false =>
    obtain ⟨hiff, hnil⟩ := hrec req.1 w₁
    have hb : w₁.breaker = req.2 := by rw [← hw₁]
    have hpk : w₁.parks = w.parks := by rw [← hw₁]
    rw [hb, hpk] at hiff
    simpa using ⟨hiff, hnil⟩

/-- What follows the first half does not matter: it comes only after something
was parked. -/
theorem Isolates.seq {retries n : ℕ} {w : Outage V} {p q : SinkM V (Option Err)}
    (h : Isolates threshold env retries n w p) :
    Isolates threshold env retries n w (do match ← p with
                                          | some err => return some err
                                          | none => q) := by
  obtain ⟨hiff, hnil⟩ := h
  unfold Isolates
  rw [exec_bind_world]
  cases hr : (w.exec threshold env p).1 with
  | some err => simpa using hiff
  | none =>
    have hparks := hnil hr
    have hmore : w.parked.length < (Outage.exec threshold env q (w.exec threshold env p).2).2.parked.length :=
      Nat.lt_of_lt_of_le hparks (parked_grows q _).length_le
    exact ⟨⟨fun _ => hiff.mp hparks, fun _ => hmore⟩, fun _ => hmore⟩

/-- **Bisection parks when the requests that lead to the first event all pass.**
An `n`-event batch takes `log₂ n` of them. -/
theorem isolateFuel_isolates (hm : 0 ≤ maxRetries) (hdown : env.Down) :
    ∀ (fuel : ℕ) (events : List (CDCEvent V)), events ≠ [] → events.length ≤ fuel → ∀ (err : Err) (w : Outage V),
      Isolates threshold env maxRetries.toNat (Nat.log 2 events.length) w
        (isolateFuel (resilientSink (destination name limit) maxRetries) fuel events err) := by
  intro fuel
  induction fuel with
  | zero => intro events hne hlen; exact absurd (List.length_eq_zero_iff.mp (by omega)) hne
  | succ fuel ih =>
    intro events hne hlen err w
    by_cases htwo : 2 ≤ events.length
    · obtain ⟨⟨h₁, hl₁⟩, -, -⟩ := halves_shorter htwo
      have hlog : Nat.log 2 events.length = Nat.log 2 (events.take (events.length / 2)).length + 1 := by
        rw [Nat.log_of_one_lt_of_le (by decide) htwo, List.length_take, Nat.min_eq_left (by omega)]
      rw [hlog, isolateFuel_succ htwo]
      exact (isolateHalf_isolates hm hdown h₁ (ih _ h₁ (by omega)) w).seq
    · obtain ⟨event, rfl⟩ : ∃ event, events = [event] :=
        List.length_eq_one_iff.mp (by have := List.length_pos_iff.mpr hne; omega)
      exact park_isolates _ event err _ w

end Bisection

/-! ## The two counters -/

/-- The states a breaker is in between requests. -/
def Breaker.AtRest (b : Breaker) : Prop :=
  b.state = .open ∨ b.state = .closed ∧ b.consecutiveFailures < b.failureThreshold

/-- The breaker lets a request through: closed with room for the failures
before it, or its timeout has passed. -/
def Breaker.Lets (b : Breaker) (requests : ℕ → RequestEnv) (k : ℕ) : Prop :=
  b.state = .closed ∧ b.consecutiveFailures + k < b.failureThreshold ∨ (requests k).expired = true

/-- A failed request counts against the breaker: no attempt fails because the
caller gave up, and none with the breaker's own errors. -/
def RequestEnv.Plain (e : RequestEnv) : Prop :=
  ∀ i, (e.errs i).isPermanent = false ∧ (e.errs i).is .canceled = false ∧ (e.errs i).is .openState = false ∧
    (e.errs i).is .tooManyRequests = false

/-- A request that is let through fails with the attempt's error, and counts. -/
theorem request_let {b : Breaker} (hb : b.AtRest) (retries : ℕ) {e : RequestEnv} (he : e.Plain)
    (hlets : b.state = .closed ∨ e.expired = true) :
    (b.request retries e).1 = e.errs (e.lastAttempt 0 retries) ∧ (b.request retries e).2.AtRest ∧
      (b.request retries e).2.failureThreshold = b.failureThreshold ∧
      ∀ k, ((b.request retries e).2.state = .closed ∧
          (b.request retries e).2.consecutiveFailures + k < b.failureThreshold ↔
        b.state = .closed ∧ b.consecutiveFailures + (k + 1) < b.failureThreshold) := by
  obtain ⟨hperm, hcan, hopen, hmany⟩ := he (e.lastAttempt 0 retries)
  have hrep : reported (e.errs (e.lastAttempt 0 retries)) = e.errs (e.lastAttempt 0 retries) := by
    simp [reported, hopen, hmany]
  have hfail : isSuccessful (some (e.errs (e.lastAttempt 0 retries))) = false := by simp [isSuccessful, hperm, hcan]
  rcases hb with hst | ⟨hst, hlt⟩
  · have hexp : e.expired = true := by simpa [hst] using hlets
    simp [Breaker.request, Breaker.beforeRequest, Breaker.currentState, Breaker.setState, Breaker.afterRequest,
      Breaker.onFailure, Breaker.AtRest, hst, hexp, hrep, hfail]
  · have hreq : b.request retries e = (e.errs (e.lastAttempt 0 retries),
        { b with requests := b.requests + 1 }.onFailure) := by
      simp [Breaker.request, Breaker.beforeRequest, Breaker.currentState, Breaker.afterRequest, hst, hrep, hfail]
    rw [hreq]
    by_cases hfull : b.consecutiveFailures + 1 ≥ b.failureThreshold
    · simp [Breaker.onFailure, Breaker.AtRest, Breaker.setState, hst, hfull]
      omega
    · simp only [Breaker.onFailure, Breaker.AtRest, hst, hfull, if_false, true_and, reduceCtorEq, false_or]
      exact ⟨by omega, fun k => by omega⟩

theorem request_rejected {b : Breaker} (hst : b.state = .open) (retries : ℕ) {e : RequestEnv} (hexp : e.expired = false) :
    e.stalled (b.request retries e).1 = true := by
  simp [Breaker.request, Breaker.beforeRequest, Breaker.currentState, hst, hexp, reported, RequestEnv.stalled, Err.is, Err.any]

/-- **The race of the two counters.** When every failure counts, the requests
of a delivery pass as long as the breaker has room for the failures before
them, or its timeout has passed each time it is open. -/
theorem forall_passes_iff_lets (retries n : ℕ) (b : Breaker) (hb : b.AtRest) (requests : ℕ → RequestEnv)
    (hplain : ∀ j, (requests j).Plain) :
    (∀ k < n, b.Passes retries requests k) ↔ ∀ k < n, b.Lets requests k ∧
      (requests k).stalled ((requests k).errs ((requests k).lastAttempt 0 retries)) = false := by
  induction n generalizing b requests with
  | zero => simp
  | succ n ih =>
    rw [Breaker.forall_passes_succ, Nat.forall_lt_succ_left]
    by_cases hlets : b.state = .closed ∨ (requests 0).expired = true
    · obtain ⟨herr, hrest, hthr, hnext⟩ := request_let hb retries (hplain 0) hlets
      have hfirst : b.Lets requests 0 := by
        unfold Breaker.Lets
        rcases hb with hst | ⟨hst, hlt⟩
        · exact .inr (by simpa [hst] using hlets)
        · exact .inl ⟨hst, hlt⟩
      rw [ih _ hrest _ fun j => hplain (j + 1), herr]
      simp only [Breaker.Lets, hthr, hnext] at hfirst ⊢
      simp only [hfirst, true_and]
    · obtain ⟨hclosed, hexp⟩ := not_or.mp hlets
      have hopen : b.state = .open := by
        rcases hb with hst | ⟨hst, -⟩
        · exact hst
        · exact absurd hst hclosed
      have hno : ¬ b.Lets requests 0 := by simp [Breaker.Lets, hclosed, hexp]
      rw [request_rejected hopen retries (by simpa using hexp)]
      simp [hno]

/-- When a delivery diverts, in the two counters: the deliveries counted on its
first event against the DLQ threshold, the failures counted so far and the
requests of the bisection against the breaker's. -/
theorem Outage.diverts_iff_counters {threshold retries : ℕ} {name : String} {w : Outage V} (hb : w.breaker.AtRest)
    {d : Delivery V} (hplain : ∀ j, (d.env.requests j).Plain) :
    w.Diverts threshold name retries d ↔ ∃ first ∈ d.events.head?, threshold ≤ w.failures.count name first.id + 1 ∧
      (∀ k ≤ Nat.log 2 d.events.length, w.breaker.Lets d.env.requests k ∧ (d.env.requests k).stalled
        ((d.env.requests k).errs ((d.env.requests k).lastAttempt 0 retries)) = false) ∧ d.env.parkErr 0 = none := by
  have h := forall_passes_iff_lets retries (Nat.log 2 d.events.length + 1) w.breaker hb d.env.requests hplain
  simp only [Nat.lt_succ_iff] at h
  simp only [Outage.Diverts, h]

/-! ## Deliveries and runs -/

section Runs

variable {threshold : ℕ} {name : String} {limit maxRetries : Int}

/-- A request of an outage never reports a data error. -/
theorem request_not_permanent {env : DeliveryEnv} (hdown : env.Down) (b : Breaker) (retries j : ℕ) :
    (b.request retries (env.requests j)).1.isPermanent = false := by
  have hrep : ∀ err : Err, err.isPermanent = false → (reported err).isPermanent = false := by
    intro err h
    unfold reported
    split
    · rfl
    · exact h
  unfold Breaker.request
  cases hb : b.beforeRequest (env.requests j).expired with
  | mk answer b' =>
    cases answer with
    | error err =>
      rcases beforeRequest_error (congrArg Prod.fst hb) with rfl | rfl <;> rfl
    | ok generation => exact hrep _ (hdown _ _)

/-- What is left of a delivery after its first request, in the world `w` that
leaves: it stalls, it stays below the threshold, or it is isolated. -/
theorem stack_run (hm : 0 ≤ maxRetries) {env : DeliveryEnv} (hdown : env.Down) (first : CDCEvent V)
    (rest : List (CDCEvent V)) (w₀ : Outage V) :
    ∃ w : Outage V, w.breaker = (w₀.breaker.request maxRetries.toNat (env.requests w₀.request)).2 ∧
      w.request = w₀.request + 1 ∧ w.parks = w₀.parks ∧ w.parked = w₀.parked ∧
      ((w₀.exec threshold env ((stack name limit maxRetries).process (first :: rest))).2.parked =
        if (env.requests w₀.request).stalled (w₀.breaker.request maxRetries.toNat (env.requests w₀.request)).1 ∨
          ¬ threshold ≤ w₀.failures.count name first.id + 1 then w₀.parked
        else (w.exec threshold env (isolate (resilientSink (destination name limit) maxRetries) (first :: rest)
          (w₀.breaker.request maxRetries.toNat (env.requests w₀.request)).1)).2.parked) := by
  obtain ⟨a, ha⟩ := @resilientSink_run V threshold env name limit maxRetries hm hdown (first :: rest) (by simp) w₀
  have hperm := request_not_permanent hdown w₀.breaker maxRetries.toNat w₀.request
  generalize w₀.breaker.request maxRetries.toNat (env.requests w₀.request) = req at ha hperm
  refine ⟨{ w₀ with breaker := req.2, request := w₀.request + 1, attempt := a, inRequest := false,
                    failures := (w₀.failures.recordFailure threshold env.now name first.id).2 }, rfl, rfl, rfl, rfl, ?_⟩
  simp only [stack, dlqSink, exec_bind_world, ha]
  rw [stalls_run _ rfl]
  change (Outage.exec threshold env (if (env.requests w₀.request).stalled req.1 = true then _ else _) _).2.parked = _
  cases (env.requests w₀.request).stalled req.1 with
  | true => simp
  | false =>
    have hreached := recordFailure_reached threshold w₀.failures env.now name first.id
    by_cases hthr : threshold ≤ w₀.failures.count name first.id + 1
    · simp [hperm, resilientSink, destination, hreached, hthr]
    · simp [hperm, resilientSink, destination, hreached, hthr]

/-- **A delivery parks exactly when it diverts.** -/
theorem deliver_parks_iff (hm : 0 ≤ maxRetries) (w : Outage V) (d : Delivery V) (hdown : d.env.Down) :
    w.parked.length < (w.deliver threshold (stack name limit maxRetries) d).parked.length ↔
      w.Diverts threshold name maxRetries.toNat d := by
  obtain ⟨events, env⟩ := d
  cases events with
  | nil => simp [Outage.deliver, stack, dlqSink, Outage.Diverts]
  | cons first rest =>
    obtain ⟨w₁, hb, hr, hpk, hparked, hx⟩ := @stack_run V threshold name limit maxRetries hm env hdown first rest
      { w with request := 0, attempt := 0, parks := 0, inRequest := false }
    have hiso := (@isolateFuel_isolates V threshold env name limit maxRetries hm hdown (first :: rest).length
      (first :: rest) (by simp) (Nat.le_refl _) (w.breaker.request maxRetries.toNat (env.requests 0)).1 w₁).1
    have hahead : (fun k => env.requests (w₁.request + k)) = fun k => env.requests (k + 1) := by
      funext k; rw [hr]; congr 1; dsimp only; omega
    rw [hahead, hb, hpk, hparked] at hiso
    have hpass := Breaker.forall_passes_succ w.breaker maxRetries.toNat env.requests (Nat.log 2 (first :: rest).length)
    simp only [Nat.lt_succ_iff] at hpass
    simp only [Outage.Diverts, Outage.deliver, hx, hpass, List.head?_cons, Option.mem_def, Option.some.injEq,
      exists_eq_left']
    by_cases hstay : (env.requests 0).stalled (w.breaker.request maxRetries.toNat (env.requests 0)).1 = true ∨
        ¬ threshold ≤ w.failures.count name first.id + 1
    · rw [if_pos hstay]
      rcases hstay with hst | hthr
      · simp [hst]
      · simp [hthr]
    · obtain ⟨hst, hthr⟩ := not_or.mp hstay
      rw [if_neg hstay]
      simp only [Bool.not_eq_true] at hst
      rw [isolate, hiso, hst]
      simp [not_not.mp hthr]

/-- Deliveries only ever add to the queue. -/
theorem deliver_parked_grows (sink : Sink V) (d : Delivery V) (w : Outage V) :
    w.parked <+: (w.deliver threshold sink d).parked :=
  parked_grows (sink.process d.events) { w with request := 0, attempt := 0, parks := 0, inRequest := false }

theorem run_parked_grows (sink : Sink V) (ds : List (Delivery V)) (w : Outage V) :
    w.parked <+: (w.run threshold sink ds).parked := by
  induction ds generalizing w with
  | nil => exact List.prefix_refl _
  | cons d ds ih => exact (deliver_parked_grows sink d w).trans (ih (w.deliver threshold sink d))

/-- Nothing is parked over a run when nothing is in its first delivery nor in
the others. -/
theorem run_cons_parked_eq (sink : Sink V) (d : Delivery V) (ds : List (Delivery V)) (w : Outage V) :
    (w.run threshold sink (d :: ds)).parked = w.parked ↔
      ¬ w.parked.length < (w.deliver threshold sink d).parked.length ∧
        ((w.deliver threshold sink d).run threshold sink ds).parked = (w.deliver threshold sink d).parked := by
  have hd := @deliver_parked_grows V threshold sink d w
  have hds := @run_parked_grows V threshold sink ds (w.deliver threshold sink d)
  have hrun : w.run threshold sink (d :: ds) = (w.deliver threshold sink d).run threshold sink ds := rfl
  constructor
  · intro h
    rw [hrun] at h
    have hle := hds.length_le
    rw [h] at hle
    have heq := hd.eq_of_length (Nat.le_antisymm hd.length_le hle)
    exact ⟨by omega, by rw [h, heq]⟩
  · rintro ⟨hlt, h⟩
    rw [hrun, h]
    exact (hd.eq_of_length (Nat.le_antisymm hd.length_le (Nat.le_of_not_lt hlt))).symm

/-- **When outages divert to the DLQ.** Whatever the stream delivers and
delivers again while the destination is down, with any thresholds, any retries
and any timing, nothing is parked exactly when no delivery of the run diverts
in the state it finds. -/
theorem outage_parks_nothing_iff (threshold : ℕ) (name : String) (limit maxRetries : Int) (hm : 0 ≤ maxRetries)
    (ds : List (Delivery V)) (hdown : ∀ d ∈ ds, d.env.Down) (w : Outage V) :
    (w.run threshold (stack name limit maxRetries) ds).parked = w.parked ↔
      ∀ pre d post, ds = pre ++ d :: post →
        ¬ (w.run threshold (stack name limit maxRetries) pre).Diverts threshold name maxRetries.toNat d := by
  induction ds generalizing w with
  | nil => simp [Outage.run]
  | cons d ds ih =>
    rw [run_cons_parked_eq, deliver_parks_iff hm w d (hdown d (by simp)), ih (fun d hd => hdown d (by simp [hd]))]
    constructor
    · rintro ⟨hfirst, hrest⟩ pre d' post heq
      cases pre with
      | nil => cases heq; exact hfirst
      | cons d'' pre => cases heq; exact hrest pre d' post rfl
    · intro h
      exact ⟨h [] d ds rfl, fun pre d' post heq => h (d :: pre) d' post (by rw [heq]; rfl)⟩

/-- Every attempt is refused and every clock stands still. -/
def refused : DeliveryEnv where
  requests _ := { expired := false, errs := fun _ => .new "connection refused", ctxDone := fun _ => false,
                  waitEnded := fun _ => false, ctxDoneAfter := false }
  parkErr _ := none
  now := 0

/-- A fresh sink with the default breaker. -/
def Outage.fresh (failureThreshold : ℕ) : Outage V where
  breaker := { failureThreshold }
  failures _ := none
  parked := []
  request := 0
  attempt := 0
  parks := 0
  inRequest := false

/-- The second delivery of a batch stays below a threshold of three. -/
theorem outage_parks_nothing_iff_second :
    ¬ ((Outage.fresh 5).run 3 (stack "s" 0 3) [⟨[bareEvent "0/1"], refused⟩]).Diverts 3 "s" 3
      (⟨[bareEvent "0/1"], refused⟩ : Delivery Unit) :=
  (outage_parks_nothing_iff 3 "s" 0 3 (by decide) (List.replicate 2 ⟨[bareEvent "0/1"], refused⟩)
    (fun d hd j i => by rw [List.eq_of_mem_replicate hd]; rfl) (.fresh 5)).mp (by decide) [_] _ [] rfl

/-- With the defaults (threshold 3, breaker 5, three retries), a batch of one
event delivered three times in an outage is parked. -/
theorem outage_parks_default :
    ¬ ∀ (threshold failureThreshold : ℕ) (maxRetries : Int) (ds : List (Delivery Unit)), 1 ≤ threshold →
      1 ≤ failureThreshold → 0 ≤ maxRetries → (∀ d ∈ ds, d.env.Down) →
        ((Outage.fresh failureThreshold).run threshold (stack "s" 0 maxRetries) ds).parked = [] := by
  intro h
  have hrun := h 3 5 3 (List.replicate 3 ⟨[bareEvent "0/1"], refused⟩) (by decide) (by decide) (by decide)
    (fun d hd j i => by rw [List.eq_of_mem_replicate hd]; rfl)
  exact absurd hrun (by decide)

end Runs

end Gtc
