/-
A destination that is down, whoever calls its sink: deliveries of the stream and
retries of dead letters use one `ResilientSink`, and so one circuit breaker, at
the same time.

Every operation of every caller is a step. A request that the breaker admits is
attempted `MaxRetries` more times at most, the requests of one caller come one
after the other, and the breaker admits none once it is open, except for one each
time `CircuitOpenDuration` has passed. So the attempts on a destination that
refuses them all are bounded, however the callers interleave
(`down_sink_not_hammered`).
-/
import Gtc.Lib.Threads
import Gtc.Sink.Outage
import Mathlib.Data.List.Perm.Subperm

namespace Gtc

open Lib

variable {V : Type}

/-! ## Callers -/

/-- A use of the sink: through the dead-letter sink, or without it, as a retry of a
dead letter and a delivery where there is no dead-letter queue. -/
inductive SinkCall (V : Type) where
  | deliver (events : List (CDCEvent V))
  | direct (events : List (CDCEvent V))

def SinkCall.program (name : String) (limit maxRetries : Int) : SinkCall V → SinkM V (Option Err)
  | .deliver events => (stack name limit maxRetries).process events
  | .direct events => (resilientSink (destination name limit) maxRetries).process events

/-- One call after the other. -/
def caller (name : String) (limit maxRetries : Int) : List (SinkCall V) → SinkM V Unit
  | [] => pure ()
  | call :: calls => do
    let _ ← call.program name limit maxRetries
    caller name limit maxRetries calls

/-! ## The breaker and the destination -/

structure Circuit where
  breaker : Breaker
  /-- How often a request has found the breaker open and its timeout passed. -/
  expiries : ℕ := 0

/-- An attempt the destination refuses, not for the data. -/
def Refused : (sinkSig V).Event → Prop
  | ⟨.process _ _, r⟩ => isSuccessful r = false
  | _ => True

/-- What an operation does to the breaker while the destination is down. -/
def circuitStep (c : Circuit) : (sinkSig V).Event → Circuit → Prop
  | ⟨.beforeRequest _, r⟩, c' => ∃ expired, r = (c.breaker.beforeRequest expired).1 ∧
    c' = { breaker := (c.breaker.beforeRequest expired).2
           expiries := if c.breaker.state = .open && expired then c.expiries + 1 else c.expiries }
  | ⟨.afterRequest _ generation success, _⟩, c' => c' = { c with breaker := c.breaker.afterRequest generation success }
  | x, c' => Refused x ∧ c' = c

/-! ## One caller -/

/-- A request that a caller has made and that has not returned. -/
structure OpenRequest where
  generation : ℕ
  attempts : ℕ

def track : Option OpenRequest → (sinkSig V).Event → Option OpenRequest
  | _, ⟨.beforeRequest _, .ok generation⟩ => some ⟨generation, 0⟩
  | req, ⟨.process _ _, _⟩ => req.map fun req => { req with attempts := req.attempts + 1 }
  | _, ⟨.afterRequest _ _ _, _⟩ => none
  | req, _ => req

/-- The request a caller is in after what it has done. -/
def openRequest (h : Trace V) : Option OpenRequest := h.foldl track none

theorem openRequest_snoc (h : Trace V) (x : (sinkSig V).Event) : openRequest (h ++ [x]) = track (openRequest h) x :=
  List.foldl_concat ..

/-- A caller attempts within a request, not more often than it may, and closes a
request it has made, as failed if every attempt was refused. -/
def Requests (retries : ℕ) (h : Trace V) : Op V → Prop
  | .beforeRequest _ => openRequest h = none
  | .process _ _ => ∃ req, openRequest h = some req ∧ req.attempts ≤ retries
  | .afterRequest _ generation success =>
    (∃ req, openRequest h = some req ∧ req.generation = generation) ∧ ((∀ x ∈ h, Refused x) → success = false)
  | _ => True

/-- An operation that is no part of a request. -/
def Op.aside : Op V → Prop
  | .beforeRequest _ | .process _ _ | .afterRequest _ _ _ => False
  | _ => True

theorem Op.aside.track {o : Op V} (ho : o.aside) (req : Option OpenRequest) (r : o.Res) : track req ⟨o, r⟩ = req := by
  cases o <;> first | rfl | exact ho.elim

section Caller

variable {name : String} {limit maxRetries : Int} {retries : ℕ} {h : Trace V}

/-- An operation aside leaves the caller in the request it is in. -/
theorem ask_requests {α : Type} {o : Op V} (ho : o.aside) {f : o.Res → SinkM V α} {Q : Trace V → α → Prop}
    (hf : ∀ r h', openRequest h' = openRequest h → h ⊆ h' → Obeys (Requests retries) (f r) h' Q) :
    Obeys (Requests retries) (ask o >>= f) h Q := by
  refine ⟨?_, fun r => hf r _ ?_ (List.subset_append_left _ _)⟩
  · cases o <;> trivial
  · rw [openRequest_snoc, ho.track]

/-- `h` is in a request of this generation, and if every attempt was refused so far,
`err` is no success. -/
def Failing (generation : ℕ) (h : Trace V) (err : Option Err) : Prop :=
  (∃ req, openRequest h = some req ∧ req.generation = generation) ∧ ((∀ x ∈ h, Refused x) → isSuccessful err = false)

theorem Failing.of_subset {generation : ℕ} {h h' : Trace V} {err : Option Err} (hf : Failing generation h err)
    (hopen : openRequest h' = openRequest h) (hsub : h ⊆ h') : Failing generation h' err :=
  ⟨by rw [hopen]; exact hf.1, fun hall => hf.2 fun x hx => hall x (hsub hx)⟩

theorem retryLoop_requests {generation : ℕ} (events : List (CDCEvent V)) :
    ∀ (left attempts : ℕ) (lastErr : Option Err) (h : Trace V), openRequest h = some ⟨generation, attempts⟩ →
      attempts + left ≤ retries + 1 → (left = 0 → (∀ x ∈ h, Refused x) → isSuccessful lastErr = false) →
      Obeys (Requests retries) (retryLoop (destination name limit) events lastErr left) h (Failing generation) := by
  intro left
  induction left with
  | zero => exact fun attempts lastErr h hopen _ hlast => ⟨⟨_, hopen, rfl⟩, hlast rfl⟩
  | succ left ih =>
    intro attempts lastErr h hopen hleft hlast
    refine ⟨⟨_, hopen, by show attempts ≤ retries; omega⟩, fun r => ?_⟩
    have hopen₁ : openRequest (h ++ [⟨.process name events, r⟩]) = some ⟨generation, attempts + 1⟩ := by
      rw [openRequest_snoc, hopen]
      rfl
    have hfails : Failing generation (h ++ [⟨.process name events, r⟩]) r :=
      ⟨⟨_, hopen₁, rfl⟩, fun hall => hall ⟨.process name events, r⟩ (by simp)⟩
    cases r with
    | none => exact hfails
    | some err =>
      change Obeys _ (if _ then _ else _) _ _
      split
      · exact hfails
      · refine ask_requests (o := .ctxErr) trivial fun done h₂ hopen₂ hsub₂ => ?_
        have hfails₂ := hfails.of_subset hopen₂ hsub₂
        change Obeys _ (if _ then _ else _) _ _
        split
        · exact hfails₂
        · split
          · exact hfails₂
          · rename_i hmore
            refine ask_requests (o := .backoff name) trivial fun ended h₃ hopen₃ hsub₃ => ?_
            have hfails₃ := hfails₂.of_subset hopen₃ hsub₃
            change Obeys _ (if _ then _ else _) _ _
            split
            · exact hfails₃
            · exact ih (attempts + 1) (some err) h₃ (by rw [hopen₃, hopen₂, hopen₁]) (by omega) fun hnone => absurd hnone hmore

theorem execute_requests (hretries : 0 ≤ maxRetries) (hmax : maxRetries.toNat = retries) (hidle : openRequest h = none)
    (events : List (CDCEvent V)) :
    Obeys (Requests retries) (execute name (processWithRetry (destination name limit) maxRetries events)) h
      fun h' _ => openRequest h' = none := by
  refine ⟨hidle, fun answer => ?_⟩
  cases answer with
  | error err =>
    change openRequest _ = none
    rw [openRequest_snoc, hidle]
    rfl
  | ok generation =>
    have hopen : openRequest (h ++ [⟨.beforeRequest name, .ok generation⟩]) = some ⟨generation, 0⟩ := by
      rw [openRequest_snoc]
      rfl
    refine (retryLoop_requests events _ 0 none _ hopen (by omega) fun hnone => by omega).bind fun h₁ err hfails => ?_
    refine ⟨hfails, fun _ => ?_⟩
    change openRequest _ = none
    rw [openRequest_snoc]
    rfl

/-- A sink whose `Process` makes its requests one after the other. -/
def MakesRequests (retries : ℕ) (sink : Sink V) : Prop :=
  ∀ (events : List (CDCEvent V)) (h : Trace V), openRequest h = none →
    Obeys (Requests retries) (sink.process events) h fun h' _ => openRequest h' = none

theorem resilientSink_requests (hretries : 0 ≤ maxRetries) (hmax : maxRetries.toNat = retries) :
    MakesRequests retries (resilientSink (destination name limit) maxRetries : Sink V) := by
  intro events h hidle
  change Obeys _ (if _ then _ else _) _ _
  split
  · exact hidle
  · refine (execute_requests hretries hmax hidle events).bind fun h₁ err hidle₁ => ?_
    cases err with
    | none => exact hidle₁
    | some err =>
      change Obeys _ (if _ then _ else _) _ _
      split <;> exact hidle₁

theorem stalls_requests (hidle : openRequest h = none) (err : Err) :
    Obeys (Requests retries) (stalls err : SinkM V Bool) h fun h' _ => openRequest h' = none := by
  unfold stalls
  split
  · exact hidle
  · split
    · exact hidle
    · refine ⟨trivial, fun done => ?_⟩
      change openRequest _ = none
      rw [openRequest_snoc, hidle]
      rfl

theorem managerPark_requests (hidle : openRequest h = none) (sinkName : String) (event : CDCEvent V) (cause : Err)
    (attempts firstFailed : ℕ) :
    Obeys (Requests retries) (managerPark sinkName event cause attempts firstFailed) h fun h' _ => openRequest h' = none := by
  refine ask_requests (o := .now) trivial fun now h₁ hopen₁ _ => ?_
  refine ask_requests (o := .park _) trivial fun parkErr h₂ hopen₂ _ => ?_
  have hidle₂ : openRequest h₂ = none := by rw [hopen₂, hopen₁, hidle]
  cases parkErr with
  | some err => exact hidle₂
  | none => exact ask_requests (o := .clearFailure sinkName event.id) trivial fun _ h₃ hopen₃ _ => hopen₃.trans hidle₂

theorem park_requests (inner : Sink V) (hidle : openRequest h = none) (event : CDCEvent V) (cause : Err) :
    Obeys (Requests retries) (park inner event cause) h fun h' _ => openRequest h' = none := by
  refine ask_requests (o := .failureInfo inner.name event.id) trivial fun info h₁ hopen₁ _ => ?_
  refine (managerPark_requests (hopen₁.trans hidle) _ _ _ _ _).bind fun h₂ parkErr hidle₂ => ?_
  cases parkErr <;> exact hidle₂

theorem isolateHalf_requests {inner : Sink V} (hi : MakesRequests retries inner)
    {isolate : List (CDCEvent V) → Err → SinkM V (Option Err)}
    (hisolate : ∀ events err h, openRequest h = none →
      Obeys (Requests retries) (isolate events err) h fun h' _ => openRequest h' = none)
    (half : List (CDCEvent V)) (hidle : openRequest h = none) :
    Obeys (Requests retries) (isolateHalf inner isolate half) h fun h' _ => openRequest h' = none := by
  refine (hi half h hidle).bind fun h₁ err hidle₁ => ?_
  cases err with
  | none => exact ask_requests (o := .clearFailures inner.name _) trivial fun _ h₂ hopen₂ _ => hopen₂.trans hidle₁
  | some err =>
    refine (stalls_requests hidle₁ err).bind fun h₂ stalled hidle₂ => ?_
    change Obeys _ (if _ then _ else _) _ _
    split
    · exact hidle₂
    · exact hisolate half err h₂ hidle₂

theorem isolateFuel_requests {inner : Sink V} (hi : MakesRequests retries inner) :
    ∀ (fuel : ℕ) (events : List (CDCEvent V)) (err : Err) (h : Trace V), openRequest h = none →
      Obeys (Requests retries) (isolateFuel inner fuel events err) h fun h' _ => openRequest h' = none := by
  intro fuel
  induction fuel with
  | zero => exact fun events err h hidle => hidle
  | succ fuel ih =>
    intro events err h hidle
    by_cases hone : ∃ event, events = [event]
    · obtain ⟨event, rfl⟩ := hone
      exact park_requests inner hidle event err
    · rw [isolateFuel.eq_3 inner events err fuel fun event heq => hone ⟨event, heq⟩]
      refine (isolateHalf_requests hi ih _ hidle).bind fun h₁ err hidle₁ => ?_
      cases err with
      | some err => exact hidle₁
      | none => exact isolateHalf_requests hi ih _ hidle₁

theorem dlqSink_requests {inner : Sink V} (hi : MakesRequests retries inner) : MakesRequests retries (dlqSink inner) := by
  intro events h hidle
  cases events with
  | nil => exact hidle
  | cons first rest =>
    refine (hi (first :: rest) h hidle).bind fun h₁ err hidle₁ => ?_
    cases err with
    | none => exact ask_requests (o := .clearFailures inner.name _) trivial fun _ h₂ hopen₂ _ => hopen₂.trans hidle₁
    | some err =>
      refine (stalls_requests hidle₁ err).bind fun h₂ stalled hidle₂ => ?_
      change Obeys _ (if _ then _ else _) _ _
      split
      · exact hidle₂
      · change Obeys _ (if _ then _ else _) _ _
        split
        · refine ask_requests (o := .recordFailure inner.name first.id) trivial fun record h₃ hopen₃ _ => ?_
          change Obeys _ (if _ then _ else _) _ _
          split
          · exact hopen₃.trans hidle₂
          · exact isolateFuel_requests hi _ _ _ _ (hopen₃.trans hidle₂)
        · exact isolateFuel_requests hi _ _ _ _ hidle₂

theorem caller_requests (hretries : 0 ≤ maxRetries) (hmax : maxRetries.toNat = retries) (calls : List (SinkCall V)) :
    ∀ h, openRequest h = none → Obeys (Requests retries) (caller name limit maxRetries calls) h fun _ _ => True := by
  have hresilient := @resilientSink_requests V name limit maxRetries retries hretries hmax
  induction calls with
  | nil => exact fun _ _ => trivial
  | cons call calls ih =>
    intro h hidle
    have hcall : Obeys (Requests retries) (call.program name limit maxRetries) h fun h' _ => openRequest h' = none := by
      cases call with
      | deliver events => exact dlqSink_requests hresilient events h hidle
      | direct events => exact hresilient events h hidle
    exact hcall.bind fun h₁ _ hidle₁ => ih h₁ hidle₁

end Caller

/-! ## Attempts and requests -/

def isAttempt : (sinkSig V).Event → Bool
  | ⟨.process _ _, _⟩ => true
  | _ => false

/-- A request the breaker admits. -/
def isAdmission : (sinkSig V).Event → Bool
  | ⟨.beforeRequest _, .ok _⟩ => true
  | _ => false

/-- A caller has made no more attempts than its requests allow; the open request has
some left. -/
structure WithinRequests (retries : ℕ) (h : Trace V) : Prop where
  idle : openRequest h = none → h.countP isAttempt ≤ (retries + 1) * h.countP isAdmission
  inside : ∀ req, openRequest h = some req → req.attempts ≤ retries + 1 ∧
    h.countP isAttempt + (retries + 1) ≤ (retries + 1) * h.countP isAdmission + req.attempts

theorem WithinRequests.le {retries : ℕ} {h : Trace V} (hw : WithinRequests retries h) :
    h.countP isAttempt ≤ (retries + 1) * h.countP isAdmission := by
  cases hopen : openRequest h with
  | none => exact hw.idle hopen
  | some req =>
    have hreq := hw.inside req hopen
    omega

theorem WithinRequests.snoc {retries : ℕ} {h : Trace V} (hw : WithinRequests retries h) {x : (sinkSig V).Event}
    (hx : Requests retries h x.1) : WithinRequests retries (h ++ [x]) := by
  have hattempts : (h ++ [x]).countP isAttempt = h.countP isAttempt + if isAttempt x then 1 else 0 := by
    rw [List.countP_append, List.countP_singleton]
  have hadmissions : (h ++ [x]).countP isAdmission = h.countP isAdmission + if isAdmission x then 1 else 0 := by
    rw [List.countP_append, List.countP_singleton]
  have hopen := openRequest_snoc h x
  obtain ⟨o, r⟩ := x
  by_cases ho : o.aside
  · have hattempt : isAttempt ⟨o, r⟩ = false := by cases o <;> trivial
    have hadmission : isAdmission ⟨o, r⟩ = false := by cases o <;> trivial
    rw [ho.track] at hopen
    constructor <;> rw [hopen, hattempts, hadmissions, hattempt, hadmission]
    · exact hw.idle
    · exact hw.inside
  · cases o with
    | beforeRequest sink =>
      have hidle := hw.idle hx
      cases r with
      | error err =>
        have hsame : openRequest (h ++ [⟨.beforeRequest sink, .error err⟩]) = none := hopen.trans hx
        exact ⟨fun _ => by rw [hattempts, hadmissions]; exact hidle, fun req hreq => by simp [hsame] at hreq⟩
      | ok generation =>
        constructor <;> rw [hopen, hattempts, hadmissions]
        · exact fun hnone => by cases hnone
        · intro req hreq
          cases hreq
          simp only [isAttempt, isAdmission, Bool.false_eq_true, if_false, if_true, Nat.mul_add]
          omega
    | process sink events =>
      obtain ⟨req, hreq, hle⟩ := hx
      have hinside := hw.inside req hreq
      constructor <;> rw [hopen, hattempts, hadmissions, hreq]
      · exact fun hnone => by cases hnone
      · intro req' hreq'
        cases hreq'
        simp only [isAttempt, isAdmission, Bool.false_eq_true, if_false, if_true, Nat.add_zero]
        omega
    | afterRequest sink generation success =>
      obtain ⟨⟨req, hreq, -⟩, -⟩ := hx
      have hinside := hw.inside req hreq
      constructor <;> rw [hopen, hattempts, hadmissions]
      · intro _
        simp only [isAttempt, isAdmission, Bool.false_eq_true, if_false, Nat.add_zero]
        omega
      · exact fun req hnone => by cases hnone
    | _ => exact absurd trivial ho

/-! ## The breaker, case by case -/

section Breaker

variable (b : Breaker)

theorem Breaker.beforeRequest_cases (expired : Bool) :
    (b.state = .closed ∧ b.beforeRequest expired = (.ok b.generation, { b with requests := b.requests + 1 })) ∨
    ((b.state = .open ∧ expired = false ∨ b.state = .halfOpen) ∧ ∃ err, b.beforeRequest expired = (.error err, b)) ∨
    (b.state = .open ∧ expired = true ∧ b.beforeRequest expired = (.ok (b.generation + 1), { b with
      state := .halfOpen, generation := b.generation + 1, requests := 1, consecutiveSuccesses := 0, consecutiveFailures := 0 })) ∨
    (b.state = .halfOpen ∧ b.requests = 0 ∧ b.beforeRequest expired = (.ok b.generation, { b with requests := 1 })) := by
  cases hstate : b.state with
  | closed => simp [beforeRequest, currentState, hstate]
  | «open» => cases expired <;> simp [beforeRequest, currentState, setState, hstate]
  | halfOpen =>
    by_cases hrequests : b.requests = 0
    · simp [beforeRequest, currentState, hstate, hrequests]
    · have hpos : 1 ≤ b.requests := by omega
      simp [beforeRequest, currentState, hstate, hpos]

/-- A failed request of an earlier generation is ignored, and one of this generation is
counted, or opens the breaker. -/
theorem Breaker.afterFailure_cases (generation : ℕ) :
    ((b.generation ≠ generation ∨ b.state = .open) ∧ b.afterRequest generation false = b) ∨
    (b.generation = generation ∧ b.state = .closed ∧ b.consecutiveFailures + 1 < b.failureThreshold ∧
      b.afterRequest generation false =
        { b with consecutiveFailures := b.consecutiveFailures + 1, consecutiveSuccesses := 0 }) ∨
    (b.state ≠ .open ∧ (b.afterRequest generation false).state = .open ∧
      (b.afterRequest generation false).failureThreshold = b.failureThreshold) := by
  by_cases hgeneration : b.generation = generation
  · cases hstate : b.state with
    | closed =>
      by_cases hfull : b.consecutiveFailures + 1 < b.failureThreshold
      · have hnot : ¬ b.failureThreshold ≤ b.consecutiveFailures + 1 := by omega
        simp [afterRequest, onFailure, hgeneration, hstate, hfull, hnot]
      · have hreached : b.failureThreshold ≤ b.consecutiveFailures + 1 := by omega
        simp [afterRequest, onFailure, setState, hgeneration, hstate, hfull, hreached]
    | «open» => simp [afterRequest, onFailure, hgeneration, hstate]
    | halfOpen => simp [afterRequest, onFailure, setState, hgeneration, hstate]
  · simp [afterRequest, hgeneration]

end Breaker

/-! ## Requests and the breaker -/

/-- Caller `i` is in a request of this generation. -/
def InRequest (t : List (ℕ × (sinkSig V).Event)) (generation i : ℕ) : Prop :=
  ∃ req, openRequest (ofIndex i t) = some req ∧ req.generation = generation

theorem inRequest_snoc_ne {t : List (ℕ × (sinkSig V).Event)} {generation i j : ℕ} (h : j ≠ i) (x : (sinkSig V).Event) :
    InRequest (t ++ [(j, x)]) generation i ↔ InRequest t generation i := by
  rw [InRequest, InRequest, ofIndex_snoc_ne h]

/-- The requests admitted in a trace. -/
def admissions (t : List (ℕ × (sinkSig V).Event)) : ℕ := t.countP fun x => isAdmission x.2

theorem admissions_snoc (t : List (ℕ × (sinkSig V).Event)) (i : ℕ) (x : (sinkSig V).Event) :
    admissions (t ++ [(i, x)]) = admissions t + if isAdmission x then 1 else 0 := by
  rw [admissions, admissions, List.countP_append, List.countP_singleton]

/-- How the breaker stands, where it had counted `earlier` failures at first: as long as
it is closed, the admitted requests have failed or are open, and after that each
expiry admits one. -/
structure Standing (callers threshold earlier : ℕ) (t : List (ℕ × (sinkSig V).Event)) (c : Circuit) : Prop where
  failureThreshold : c.breaker.failureThreshold = threshold
  closed : c.breaker.state = .closed → ∃ flying : List ℕ, flying.Nodup ∧ (∀ i ∈ flying, i < callers) ∧
    (∀ i, i ∈ flying ↔ InRequest t c.breaker.generation i) ∧
    admissions t + earlier ≤ c.breaker.consecutiveFailures + flying.length ∧
    c.breaker.consecutiveFailures ≤ max earlier (threshold - 1)
  opened : c.breaker.state = .open → admissions t ≤ max 1 threshold - 1 + callers + c.expiries
  halfOpen : c.breaker.state = .halfOpen → c.breaker.requests ≤ 1 ∧
    admissions t + 1 ≤ max 1 threshold - 1 + callers + c.expiries + c.breaker.requests

theorem length_le_of_nodup {l : List ℕ} {n : ℕ} (hnodup : l.Nodup) (hlt : ∀ i ∈ l, i < n) : l.length ≤ n := by
  simpa using (List.subperm_of_subset hnodup fun i hi => List.mem_range.mpr (hlt i hi)).length_le

section Standing

variable {callers threshold earlier : ℕ} {t : List (ℕ × (sinkSig V).Event)} {c : Circuit}

/-- In every state the admitted requests are within the bound. -/
theorem Standing.le (hs : Standing callers threshold earlier t c) :
    admissions t ≤ max 1 threshold - 1 + callers + c.expiries := by
  cases hstate : c.breaker.state with
  | closed =>
    obtain ⟨flying, hnodup, hlt, -, hadmitted, hfailures⟩ := hs.closed hstate
    have hlength := length_le_of_nodup hnodup hlt
    omega
  | «open» => exact hs.opened hstate
  | halfOpen =>
    have hhalf := hs.halfOpen hstate
    omega

/-- What neither admits a request nor touches the breaker changes nothing. -/
theorem Standing.same (hs : Standing callers threshold earlier t c) {i : ℕ} {x : (sinkSig V).Event}
    (hadmission : isAdmission x = false)
    (hflying : c.breaker.state = .closed →
      (InRequest (t ++ [(i, x)]) c.breaker.generation i ↔ InRequest t c.breaker.generation i)) :
    Standing callers threshold earlier (t ++ [(i, x)]) c := by
  have hadmissions : admissions (t ++ [(i, x)]) = admissions t := by rw [admissions_snoc, hadmission]; rfl
  refine ⟨hs.failureThreshold, fun hstate => ?_, ?_, ?_⟩
  · obtain ⟨flying, hnodup, hlength, hmem, hrest⟩ := hs.closed hstate
    refine ⟨flying, hnodup, hlength, fun j => (hmem j).trans ?_, by rwa [hadmissions]⟩
    by_cases hj : i = j
    · exact hj ▸ (hflying hstate).symm
    · exact (inRequest_snoc_ne hj x).symm
  · rw [hadmissions]
    exact hs.opened
  · rw [hadmissions]
    exact hs.halfOpen

/-- A request asks the breaker. -/
theorem Standing.beforeRequest (hs : Standing callers threshold earlier t c) {i : ℕ} (hi : i < callers) {sink : String}
    (hidle : openRequest (ofIndex i t) = none) {r : Except Err ℕ} {c' : Circuit}
    (hstep : circuitStep (V := V) c ⟨.beforeRequest sink, r⟩ c') :
    Standing callers threshold earlier (t ++ [(i, ⟨.beforeRequest sink, r⟩)]) c' := by
  obtain ⟨expired, rfl, rfl⟩ := hstep
  have hnot : ∀ generation, ¬ InRequest t generation i := by
    rintro generation ⟨req, hreq, -⟩
    rw [hidle] at hreq
    cases hreq
  rcases c.breaker.beforeRequest_cases expired with ⟨hstate, hanswer⟩ | ⟨hstate, err, hanswer⟩ | ⟨hstate, rfl, hanswer⟩ |
    ⟨hstate, hrequests, hanswer⟩
  · -- closed: the request is one more that is open
    obtain ⟨flying, hnodup, hlt, hmem, hadmitted, hfailures⟩ := hs.closed hstate
    rw [hanswer]
    refine ⟨hs.failureThreshold, fun _ => ⟨i :: flying, ?_, ?_, fun j => ?_, ?_, hfailures⟩, fun h => ?_, fun h => ?_⟩
    · exact List.nodup_cons.mpr ⟨fun hm => hnot _ ((hmem i).mp hm), hnodup⟩
    · exact List.forall_mem_cons.mpr ⟨hi, hlt⟩
    · by_cases hj : i = j
      · subst hj
        refine iff_of_true List.mem_cons_self ⟨⟨c.breaker.generation, 0⟩, ?_, rfl⟩
        rw [ofIndex_snoc_self, openRequest_snoc]
        rfl
      · rw [List.mem_cons, or_iff_right (Ne.symm hj), inRequest_snoc_ne hj]
        exact hmem j
    · rw [admissions_snoc, List.length_cons]
      simp only [isAdmission, if_true]
      omega
    · exact absurd (hstate.symm.trans h) (by simp)
    · exact absurd (hstate.symm.trans h) (by simp)
  · -- refused
    have hexpiries : (if c.breaker.state = .open && expired then c.expiries + 1 else c.expiries) = c.expiries := by
      rcases hstate with ⟨hopen, rfl⟩ | hhalf
      · simp [hopen]
      · simp [hhalf]
    rw [hanswer, hexpiries]
    refine hs.same rfl fun _ => ?_
    rw [InRequest, ofIndex_snoc_self, openRequest_snoc]
    rfl
  · -- the timeout has passed: the one request that is let through
    have hbound := hs.opened hstate
    rw [hanswer]
    refine ⟨hs.failureThreshold, fun h => (by cases h), fun h => (by cases h), fun _ => ⟨Nat.le_refl 1, ?_⟩⟩
    rw [admissions_snoc]
    simp only [isAdmission, if_true, hstate, decide_true, Bool.and_self]
    omega
  · have hbound := hs.halfOpen hstate
    rw [hanswer]
    refine ⟨hs.failureThreshold, fun h => ?_, fun h => ?_, fun _ => ⟨Nat.le_refl 1, ?_⟩⟩
    · exact absurd (hstate.symm.trans h) (by simp)
    · exact absurd (hstate.symm.trans h) (by simp)
    · rw [admissions_snoc]
      simp only [isAdmission, if_true, hstate, reduceCtorEq, decide_false, Bool.false_and, Bool.false_eq_true, if_false]
      omega

/-- A request that failed returns. -/
theorem Standing.afterFailure (hs : Standing callers threshold earlier t c) {i generation : ℕ} {sink : String}
    (hopen : InRequest t generation i) :
    Standing callers threshold earlier (t ++ [(i, ⟨.afterRequest sink generation false, ()⟩)])
      { c with breaker := c.breaker.afterRequest generation false } := by
  have hadmissions : admissions (t ++ [(i, (⟨.afterRequest sink generation false, ()⟩ : (sinkSig V).Event))]) = admissions t := by
    rw [admissions_snoc]
    rfl
  have hgone : ∀ g, ¬ InRequest (t ++ [(i, (⟨.afterRequest sink generation false, ()⟩ : (sinkSig V).Event))]) g i := by
    rintro g ⟨req, hreq, -⟩
    rw [ofIndex_snoc_self, openRequest_snoc] at hreq
    cases hreq
  have hbound := hs.le
  rcases c.breaker.afterFailure_cases generation with ⟨hignored, hafter⟩ | ⟨rfl, hstate, hroom, hafter⟩ | ⟨-, hstate, hsame⟩
  · rw [hafter]
    refine hs.same rfl fun hclosed => iff_of_false (hgone _) ?_
    rintro ⟨req, hreq, hcurrent⟩
    obtain ⟨req', hreq', hgeneration⟩ := hopen
    rw [hreq] at hreq'
    cases hreq'
    rcases hignored with hne | hstate
    · exact hne (hcurrent.symm.trans hgeneration)
    · rw [hstate] at hclosed
      cases hclosed
  · -- counted, and no longer open
    obtain ⟨flying, hnodup, hlt, hmem, hadmitted, -⟩ := hs.closed hstate
    have hi : i ∈ flying := (hmem i).mpr hopen
    rw [hafter]
    refine ⟨hs.failureThreshold, fun _ => ⟨flying.erase i, hnodup.erase i, fun j hj => hlt j (List.mem_of_mem_erase hj),
      fun j => ?_, ?_, ?_⟩, fun h => ?_, fun h => ?_⟩
    · rw [hnodup.mem_erase_iff]
      by_cases hj : i = j
      · subst hj
        exact iff_of_false (fun h => h.1 rfl) (hgone _)
      · rw [inRequest_snoc_ne hj, and_iff_right (Ne.symm hj)]
        exact hmem j
    · have hpos := List.length_pos_of_mem hi
      rw [hadmissions, List.length_erase_of_mem hi]
      simp only
      omega
    · have hlimit := hs.failureThreshold
      simp only
      omega
    · exact absurd (hstate.symm.trans h) (by simp)
    · exact absurd (hstate.symm.trans h) (by simp)
  · -- the breaker opens
    refine ⟨hsame.trans hs.failureThreshold, fun h => ?_, fun _ => by rwa [hadmissions], fun h => ?_⟩
    · exact absurd (hstate.symm.trans h) (by simp)
    · exact absurd (hstate.symm.trans h) (by simp)

/-- Any operation of a caller. -/
theorem Standing.step (hs : Standing callers threshold earlier t c) {i retries : ℕ} (hi : i < callers) {x : (sinkSig V).Event}
    (hrequests : Requests retries (ofIndex i t) x.1) (hrefused : ∀ y ∈ ofIndex i t, Refused y) {c' : Circuit}
    (hstep : circuitStep c x c') : Standing callers threshold earlier (t ++ [(i, x)]) c' := by
  obtain ⟨o, r⟩ := x
  by_cases ho : o.aside
  · obtain rfl : c' = c := by cases o <;> first | exact hstep.2 | exact ho.elim
    have hadmission : isAdmission ⟨o, r⟩ = false := by cases o <;> trivial
    refine hs.same hadmission fun _ => ?_
    rw [InRequest, ofIndex_snoc_self, openRequest_snoc, ho.track]
    rfl
  · cases o with
    | beforeRequest sink => exact hs.beforeRequest hi hrequests hstep
    | afterRequest sink generation success =>
      obtain ⟨hopen, hfailed⟩ := hrequests
      obtain rfl : c' = _ := hstep
      obtain rfl : success = false := hfailed hrefused
      exact hs.afterFailure hopen
    | process sink events =>
      obtain ⟨-, rfl⟩ : Refused ⟨.process sink events, r⟩ ∧ c' = c := hstep
      obtain ⟨req, hreq, -⟩ := hrequests
      refine hs.same rfl fun _ => ?_
      rw [InRequest, InRequest, ofIndex_snoc_self, openRequest_snoc, hreq]
      simp [track]
    | _ => exact absurd trivial ho

end Standing

/-! ## Every run of the callers -/

theorem refused_of_step {c c' : Circuit} {x : (sinkSig V).Event} (hstep : circuitStep c x c') : Refused x := by
  obtain ⟨o, r⟩ := x
  cases o <;> first | trivial | exact hstep.1

/-- **A sink that is down is not hammered.** However many callers deliver through one
`ResilientSink`, each one batch after the other, and however they interleave: while
the destination refuses every attempt, the number of attempts is at most
`MaxRetries + 1` for each of `FailureThreshold` requests, of one more that each other
caller had open when the breaker opened, and of one for every time the breaker's
timeout has passed. -/
theorem down_sink_not_hammered (name : String) (limit maxRetries : Int) (hretries : 0 ≤ maxRetries)
    (callers : List (List (SinkCall V))) (b : Breaker) (hclosed : b.state = .closed) (t : List (ℕ × (sinkSig V).Event))
    (ps' : List (SinkM V Unit)) (c' : Circuit)
    (hrun : Runs circuitStep (callers.map (caller name limit maxRetries)) { breaker := b } t ps' c') :
    t.countP (isAttempt ·.2) ≤ (maxRetries.toNat + 1) * (max 1 b.failureThreshold - 1 + callers.length + c'.expiries) := by
  have hobeys : ∀ p ∈ callers.map (caller (V := V) name limit maxRetries),
      Obeys (Requests maxRetries.toNat) p [] fun _ _ => True :=
    List.forall_mem_map.mpr fun calls _ => caller_requests hretries rfl calls [] rfl
  have hall : (∀ x ∈ t, Refused x.2) ∧ (∀ i, WithinRequests maxRetries.toNat (ofIndex i t)) ∧
      Standing callers.length b.failureThreshold b.consecutiveFailures t c' := by
    refine hrun.history (P := fun t c => (∀ x ∈ t, Refused x.2) ∧ (∀ i, WithinRequests maxRetries.toNat (ofIndex i t)) ∧
      Standing callers.length b.failureThreshold b.consecutiveFailures t c) ⟨by simp, fun i => ?_, ?_⟩ ?_
    · exact ⟨fun _ => Nat.zero_le _, fun req hreq => by cases hreq⟩
    · refine ⟨rfl, fun _ => ⟨[], List.nodup_nil, by simp, fun i => ?_, Nat.le_of_eq (Nat.zero_add _), Nat.le_max_left ..⟩, ?_, ?_⟩
      · exact iff_of_false (by simp) fun ⟨req, hreq, _⟩ => by cases hreq
      · exact fun h => absurd (hclosed.symm.trans h) (by simp)
      · exact fun h => absurd (hclosed.symm.trans h) (by simp)
    · rintro t i x qs c c' hrun ⟨hrefused, hwithin, hstanding⟩ hstep
      have hrequests := hrun.obeys hobeys
      have hi : i < callers.length := by
        obtain ⟨qs, k, m, m', hrun₁, hasks, -, -⟩ := hrun.at
        have hlt := (List.getElem?_eq_some_iff.mp hasks).1
        rwa [hrun₁.length, List.length_map] at hlt
      refine ⟨?_, fun j => ?_, hstanding.step hi hrequests (fun y hy => ?_) hstep⟩
      · exact List.forall_mem_append.mpr ⟨hrefused, List.forall_mem_singleton.mpr (refused_of_step hstep)⟩
      · by_cases hj : i = j
        · subst hj
          rw [ofIndex_snoc_self]
          exact (hwithin i).snoc hrequests
        · rw [ofIndex_snoc_ne hj]
          exact hwithin j
      · rw [ofIndex_eq_map] at hy
        obtain ⟨z, hz, rfl⟩ := List.mem_map.mp hy
        exact hrefused z (List.mem_filter.mp hz).1
  obtain ⟨-, hwithin, hstanding⟩ := hall
  exact (countP_le_of_ofIndex fun i => (hwithin i).le).trans (Nat.mul_le_mul_left _ hstanding.le)

/-! ### Two callers at a breaker that one failure opens -/

def downErr : Err := .new "connection refused"

/-- Both are admitted before the first one fails. -/
def bothAdmitted : List (ℕ × (sinkSig ℕ).Event) :=
  [(0, ⟨.beforeRequest "s", .ok 0⟩), (1, ⟨.beforeRequest "s", .ok 0⟩), (0, ⟨.process "s" [bareEvent "0/1"], some downErr⟩),
    (0, ⟨.ctxErr, false⟩), (0, ⟨.afterRequest "s" 0 false, ()⟩), (1, ⟨.process "s" [bareEvent "0/2"], some downErr⟩),
    (1, ⟨.ctxErr, false⟩), (1, ⟨.afterRequest "s" 0 false, ()⟩)]

/-- The bound is met. -/
theorem down_sink_not_hammered_two : ∃ ps' c',
    Runs circuitStep ([[SinkCall.direct [bareEvent "0/1"]], [.direct [bareEvent "0/2"]]].map (caller "s" 0 0))
      { breaker := { failureThreshold := 1 } } bothAdmitted ps' c' ∧ c'.expiries = 0 ∧
    bothAdmitted.countP (isAttempt ·.2) = 2 ∧ bothAdmitted.countP (isAttempt ·.2) ≤ (0 + 1) * (max 1 1 - 1 + 2 + 0) := by
  have hrun : Runs circuitStep ([[SinkCall.direct [bareEvent "0/1"]], [.direct [bareEvent "0/2"]]].map (caller (V := ℕ) "s" 0 0))
      { breaker := { failureThreshold := 1 } } bothAdmitted [.ret (), .ret ()]
      { breaker := { failureThreshold := 1, state := .open, generation := 1 } } :=
    .cons rfl ⟨false, rfl, rfl⟩ (.cons rfl ⟨false, rfl, rfl⟩ (.cons rfl ⟨rfl, rfl⟩ (.cons rfl ⟨trivial, rfl⟩ (.cons rfl rfl
      (.cons rfl ⟨rfl, rfl⟩ (.cons rfl ⟨trivial, rfl⟩ (.cons rfl rfl .nil)))))))
  exact ⟨_, _, hrun, rfl, rfl, down_sink_not_hammered "s" 0 0 (by decide) _ _ rfl _ _ _ hrun⟩

end Gtc
