/-
Data errors and the dead-letter queue.

A data error is an error of one event: every batch with that event in it fails
at the destination, with the error of one of its events. Below the dead-letter
sink such an error is isolated and its event parked (`dlqSink_contains`). The
transform layer stands above it, so an error of a filter is not.
-/
import Gtc.Sink.NoLoss

namespace Gtc

open Lib

variable {V : Type}

/-! ## Executions with data errors only -/

/-- An error that blames the data, and is neither a timeout nor a rejection by a
circuit breaker. -/
structure Err.IsData (err : Err) : Prop where
  permanent : err.isPermanent = true
  circuitOpen : err.is .circuitOpen = false
  deadlineExceeded : err.is .deadlineExceeded = false
  openState : err.is .openState = false
  tooManyRequests : err.is .tooManyRequests = false

/-- What the world answers when `own` gives each event's own error at the
destination, nothing else fails and the store accepts entries. -/
def DataErrors (own : CDCEvent V → Option Err) : (sinkSig V).Event → Prop
  | ⟨.process _ events, none⟩ => ∀ e ∈ events, own e = none
  | ⟨.process _ events, some err⟩ => ∃ e ∈ events, own e = some err
  | ⟨.park _, r⟩ => r = none
  | ⟨.ctxErr, done⟩ => done = false
  | ⟨.beforeRequest _, r⟩ => ∃ generation, r = .ok generation
  | _ => True

/-- Only events with an error of their own are parked. -/
def ParksFaulty (own : CDCEvent V → Option Err) : (sinkSig V).Event → Prop
  | ⟨.park entry, _⟩ => own entry.event ≠ none
  | _ => True

/-- The result of a call fails exactly when an event of the batch does, and with
its error. -/
def Verdict (own : CDCEvent V → Option Err) (events : List (CDCEvent V)) : Option Err → Prop
  | none => ∀ e ∈ events, own e = none
  | some err => ∃ e ∈ events, own e = some err

section Layers

variable {own : CDCEvent V → Option Err} (hown : ∀ e err, own e = some err → err.IsData)

/-- A sink below which nothing but data errors goes wrong. -/
def Judges (own : CDCEvent V → Option Err) (s : Sink V) : Prop :=
  ∀ events, Ensures (DataErrors own) (ParksFaulty own) (s.process events) (Verdict own events)

theorem destination_judges (name : String) (limit : Int) : Judges own (destination name limit) := by
  refine fun events => Ensures.perform (S := sinkSig V) fun r hr => ⟨trivial, ?_⟩
  cases r with
  | none => exact hr
  | some err => exact hr

include hown in
theorem Verdict.isData {events : List (CDCEvent V)} {err : Err} (h : Verdict own events (some err)) : err.IsData := by
  obtain ⟨e, -, he⟩ := h
  exact hown e err he

include hown in
/-- A data error is not retried. -/
theorem processWithRetry_judges {inner : Sink V} (hi : Judges own inner) {maxRetries : Int} (hm : 0 ≤ maxRetries)
    (events : List (CDCEvent V)) :
    Ensures (DataErrors own) (ParksFaulty own) (processWithRetry inner maxRetries events) (Verdict own events) := by
  obtain ⟨left, hl⟩ : ∃ left : ℕ, (maxRetries + 1).toNat = left + 1 := ⟨maxRetries.toNat, by omega⟩
  rw [processWithRetry, hl, retryLoop]
  refine (hi events).bind fun r hr => ?_
  cases r with
  | none => exact .pure hr
  | some err =>
    simp only [(hr.isData hown).permanent, if_true]
    exact .pure hr

include hown in
theorem resilientSink_judges {inner : Sink V} (hi : Judges own inner) {maxRetries : Int} (hm : 0 ≤ maxRetries) :
    Judges own (resilientSink inner maxRetries) := by
  intro events
  simp only [resilientSink]
  split
  · next he =>
    rw [List.isEmpty_iff.mp he]
    exact .pure fun _ hmem => by cases hmem
  · have hexecute : Ensures (DataErrors own) (ParksFaulty own)
        (execute inner.name (processWithRetry inner maxRetries events)) (Verdict own events) := by
      refine (Ensures.perform (S := sinkSig V) fun r hr => ⟨trivial, hr⟩).bind fun admitted hadmitted => ?_
      obtain ⟨generation, rfl⟩ := hadmitted
      refine (processWithRetry_judges hown hi hm events).bind fun err herr => ?_
      exact ensures_ask (fun _ => trivial) fun _ => .pure herr
    refine hexecute.bind fun r hr => ?_
    cases r with
    | none => exact .pure hr
    | some err =>
      have hdata := hr.isData hown
      simp only [hdata.openState, hdata.tooManyRequests, Bool.or_self, Bool.false_eq_true, if_false]
      exact .pure hr

/-- A data error does not stall. -/
theorem stalls_data {err : Err} (herr : err.IsData) :
    Ensures (DataErrors own) (ParksFaulty own) (stalls err) (· = false) := by
  simp only [stalls, herr.circuitOpen, herr.deadlineExceeded, Bool.false_eq_true, if_false]
  exact Ensures.perform (S := sinkSig V) fun _ hr => ⟨trivial, hr⟩

theorem park_contains (inner : Sink V) {event : CDCEvent V} (hevent : own event ≠ none) (cause : Err) :
    Ensures (DataErrors own) (ParksFaulty own) (park inner event cause) (· = none) := by
  refine ensures_ask (fun _ => trivial) fun info => ?_
  have hpark : Ensures (DataErrors own) (ParksFaulty own) (managerPark inner.name event cause info.1 info.2) (· = none) := by
    refine ensures_ask (fun _ => trivial) fun now => ?_
    refine (Ensures.perform (S := sinkSig V) fun r hr => ⟨hevent, hr⟩).bind fun r hr => ?_
    obtain rfl : r = none := hr
    exact ensures_ask (fun _ => trivial) fun _ => .pure rfl
  refine hpark.bind fun r hr => ?_
  subst hr
  exact .pure rfl

include hown in
theorem isolateHalf_contains {inner : Sink V} (hi : Judges own inner)
    {isolate : List (CDCEvent V) → Err → SinkM V (Option Err)} {half : List (CDCEvent V)}
    (hrec : ∀ err, Verdict own half (some err) →
      Ensures (DataErrors own) (ParksFaulty own) (isolate half err) (· = none)) :
    Ensures (DataErrors own) (ParksFaulty own) (isolateHalf inner isolate half) (· = none) := by
  refine (hi half).bind fun r hr => ?_
  cases r with
  | none => exact ensures_ask (fun _ => trivial) fun _ => .pure rfl
  | some err =>
    refine (stalls_data (hr.isData hown)).bind fun stalled hstalled => ?_
    subst hstalled
    exact hrec err hr

include hown in
/-- Bisection narrows a data error down to the events that have one. -/
theorem isolateFuel_contains {inner : Sink V} (hi : Judges own inner) : ∀ (fuel : ℕ) (events : List (CDCEvent V)) (err : Err),
    events.length ≤ fuel → Verdict own events (some err) →
    Ensures (DataErrors own) (ParksFaulty own) (isolateFuel inner fuel events err) (· = none) := by
  intro fuel
  induction fuel with
  | zero =>
    intro events err hle hverdict
    obtain ⟨e, he, -⟩ := hverdict
    have := List.length_pos_of_mem he
    omega
  | succ fuel ih =>
    intro events err hle hverdict
    match events with
    | [] =>
      obtain ⟨e, he, -⟩ := hverdict
      cases he
    | [event] =>
      obtain ⟨e, he, hown'⟩ := hverdict
      obtain rfl := List.mem_singleton.mp he
      exact park_contains inner (by simp [hown']) err
    | a :: b :: rest =>
      have htwo : 2 ≤ (a :: b :: rest).length := by simp
      obtain ⟨⟨-, hl₁⟩, -, hl₂⟩ := halves_shorter htwo
      rw [isolateFuel_succ htwo]
      refine (isolateHalf_contains hown hi fun err herr => ih _ err (by omega) herr).bind fun r hr => ?_
      subst hr
      exact isolateHalf_contains hown hi fun err herr => ih _ err (by omega) herr

include hown in
/-- **The dead-letter sink contains data errors**: it returns nil, and parks only
events that fail on their own. -/
theorem dlqSink_contains {inner : Sink V} (hi : Judges own inner) (events : List (CDCEvent V)) :
    Ensures (DataErrors own) (ParksFaulty own) ((dlqSink inner).process events) (· = none) := by
  simp only [dlqSink]
  cases events with
  | nil => exact .pure rfl
  | cons first rest =>
    refine (hi _).bind fun r hr => ?_
    cases r with
    | none => exact ensures_ask (fun _ => trivial) fun _ => .pure rfl
    | some err =>
      have hdata := hr.isData hown
      refine (stalls_data hdata).bind fun stalled hstalled => ?_
      subst hstalled
      simp only [hdata.permanent, Bool.not_true, Bool.false_eq_true, if_false]
      exact isolateFuel_contains hown hi _ _ err (Nat.le_refl _) hr

end Layers

/-! ## The whole stack -/

section Stack

variable {own : CDCEvent V → Option Err} (hown : ∀ e err, own e = some err → err.IsData)

include hown in
theorem wrapResilienceAndDLQ_contains {cfg : SinksConfig V} (hdlq : cfg.dlq = true) (hm : 0 ≤ cfg.maxRetries) (name : String)
    (limit : Int) (events : List (CDCEvent V)) :
    Ensures (DataErrors own) (ParksFaulty own) ((wrapResilienceAndDLQ cfg (destination name limit)).process events) (· = none) := by
  simp only [wrapResilienceAndDLQ, hdlq, if_true]
  exact dlqSink_contains hown (resilientSink_judges hown (destination_judges name limit) hm) events

theorem transformBatch_isOk {global : Option (Chain V)} {tables : List (String × Chain V)} {events : List (CDCEvent V)}
    (h : ∀ e ∈ events, ∃ out, transformEvent global tables e = .ok out) : ∃ out, transformBatch global tables events = .ok out := by
  induction events with
  | nil => exact ⟨[], rfl⟩
  | cons e events ih =>
    obtain ⟨o, ho⟩ := h e (by simp)
    obtain ⟨out, hout⟩ := ih fun e' he' => h e' (by simp [he'])
    exact ⟨o.toList ++ out, by rw [transformBatch, ho, hout]; rfl⟩

theorem transformSink_contains {inner : Sink V}
    (hi : ∀ events, Ensures (DataErrors own) (ParksFaulty own) (inner.process events) (· = none))
    {global : Option (Chain V)} {tables : List (String × Chain V)} {events : List (CDCEvent V)}
    (h : ∀ e ∈ events, ∃ out, transformEvent global tables e = .ok out) :
    Ensures (DataErrors own) (ParksFaulty own) ((transformSink inner global tables).process events) (· = none) := by
  unfold transformSink
  split
  · exact hi events
  · obtain ⟨out, hout⟩ := transformBatch_isOk h
    simp only [hout]
    cases out with
    | nil => exact .pure rfl
    | cons e out => exact hi (e :: out)

include hown in
/-- Where no filter fails, the stack contains data errors. -/
theorem build_contains {cfg : SinksConfig V} (hdlq : cfg.dlq = true) (hm : 0 ≤ cfg.maxRetries) (spec : SinkSpec V)
    {events : List (CDCEvent V)} (h : ∀ e ∈ events, ∃ out, spec.fate e = .ok out) :
    Ensures (DataErrors own) (ParksFaulty own) ((spec.build cfg).process events) (· = none) := by
  have hinner := wrapResilienceAndDLQ_contains hown hdlq hm spec.name spec.maxBatchEvents
  unfold SinkSpec.build
  cases hx : spec.excluded with
  | none =>
    refine transformSink_contains hinner fun e he => ?_
    obtain ⟨out, hout⟩ := h e he
    exact ⟨out, by simpa [SinkSpec.fate, hx] using hout⟩
  | some outbox =>
    obtain ⟨schema, table⟩ := outbox
    simp only [excludeTable]
    have hrest : ∀ e ∈ withoutTable schema table events, ∃ out, transformEvent spec.global spec.tables e = .ok out := by
      intro e he
      rw [withoutTable_eq_filter, List.mem_filter] at he
      obtain ⟨out, hout⟩ := h e he.1
      refine ⟨out, ?_⟩
      rw [SinkSpec.fate, if_neg] at hout
      · exact hout
      · rintro heq
        obtain ⟨rfl, rfl⟩ := Prod.mk.inj (Option.some.inj (hx.symm.trans heq))
        simp at he
    cases hk : withoutTable schema table events with
    | nil => exact .pure rfl
    | cons e rest => exact transformSink_contains hinner (hk ▸ hrest)

/-- Parked in the dead-letter queue. -/
def ParkedIn (t : Trace V) (e : CDCEvent V) : Prop := ∃ entry, ⟨.park entry, none⟩ ∈ t ∧ entry.event = e

/-- Accepted by the destination. -/
def DeliveredIn (t : Trace V) (e : CDCEvent V) : Prop := ∃ name batch, ⟨.process name batch, none⟩ ∈ t ∧ e ∈ batch

/-- What should become of an event: it is parked if it raises an error of its
own, in a filter or at the destination, and delivered or filtered out if not. -/
def Isolated (spec : SinkSpec V) (own : CDCEvent V → Option Err) (t : Trace V) (e : CDCEvent V) : Prop :=
  match spec.fate e with
  | .error _ => ParkedIn t e
  | .ok none => True
  | .ok (some out) => (own out = none → DeliveredIn t out) ∧ (own out ≠ none → ParkedIn t out)

/-- **Data errors stall a pipeline with a dead-letter queue exactly when a filter
raises them**: whatever data errors of single events the stack meets, its
`Process` returns nil with every event dealt with on its own, if and only if no
transform chain fails on an event of the batch. -/
theorem data_errors_isolated_iff {cfg : SinksConfig V} (hdlq : cfg.dlq = true) (hm : 0 ≤ cfg.maxRetries) (spec : SinkSpec V)
    {own : CDCEvent V → Option Err} (hown : ∀ e err, own e = some err → err.IsData) (events : List (CDCEvent V)) (t : Trace V)
    (r : Option Err) (hx : Exec ((spec.build cfg).process events) t r) (hdata : ∀ x ∈ t, DataErrors own x) :
    (r = none ∧ ∀ e ∈ events, Isolated spec own t e) ↔ ∀ e ∈ events, ∃ out, spec.fate e = .ok out := by
  obtain ⟨haccounts, hall⟩ := build_follows hm spec events
  constructor
  · rintro ⟨rfl, -⟩
    exact hall t hx
  · intro hok
    obtain ⟨hparks, rfl⟩ := build_contains hown hdlq hm spec hok t r hx hdata
    refine ⟨rfl, fun e he => ?_⟩
    have hsettled := (haccounts t none hx).1 rfl
    obtain ⟨out, hout⟩ := hok e he
    simp only [Isolated, hout]
    cases out with
    | none => trivial
    | some out =>
      have hmem : out ∈ settledEvents t := by
        rw [hsettled]
        exact List.mem_filterMap.mpr ⟨e, he, by simp [kept, hout]⟩
      rcases mem_settledEvents hmem with ⟨name, batch, hin, hbatch⟩ | ⟨entry, hin, rfl⟩
      · have hgood : own out = none := hdata _ hin out hbatch
        exact ⟨fun _ => ⟨name, batch, hin, hbatch⟩, fun hbad => absurd hgood hbad⟩
      · exact ⟨fun hgood => absurd hgood (hparks _ hin), fun _ => ⟨entry, hin, rfl⟩⟩

end Stack

/-! ## A filter on a column -/

/-- The compiled filter `new.status == 1`, which fails where the row has no such
column. -/
def onStatus : CelProgram ℕ := fun _ _ _ new _ =>
  match new.lookup "status" with
  | some status => .ok (.inl (status == some 1))
  | none => .error (.new "no such key: status")

def statusSpec : SinkSpec ℕ :=
  { name := "s", maxBatchEvents := 0, global := some ⟨[⟨some onStatus, [], []⟩]⟩, tables := [], excluded := none }

def dlqConfig : SinksConfig ℕ := { maxRetries := 0, dlq := true, outbox := none, sinks := [], outboxName := "outbox" }

def statusInsert (id : String) : CDCEvent ℕ := { (bareEvent id : CDCEvent ℕ) with newData := some [("status", some 1)] }

/-- A DELETE has no new data. -/
def statusDelete : CDCEvent ℕ :=
  { (bareEvent "0/3" : CDCEvent ℕ) with operation := .delete, newData := none, oldData := some [("id", some 3)] }

def rejected : Err := .permanent (.new "rejected")

/-- The destination rejects the second event. -/
def secondRejected (e : CDCEvent ℕ) : Option Err := if e.id = "0/2" then some rejected else none

/-- The batch of two fails, its first half is accepted and its second parked. -/
def rejectedTrace : Trace ℕ :=
  let a := statusInsert "0/1"
  let b := statusInsert "0/2"
  [⟨.beforeRequest "s", .ok 0⟩, ⟨.process "s" [a, b], some rejected⟩, ⟨.afterRequest "s" 0 true, ()⟩, ⟨.ctxErr, false⟩,
    ⟨.beforeRequest "s", .ok 0⟩, ⟨.process "s" [a], none⟩, ⟨.afterRequest "s" 0 true, ()⟩, ⟨.clearFailures "s" ["0/1"], ()⟩,
    ⟨.beforeRequest "s", .ok 0⟩, ⟨.process "s" [b], some rejected⟩, ⟨.afterRequest "s" 0 true, ()⟩, ⟨.ctxErr, false⟩,
    ⟨.failureInfo "s" "0/2", (1, 7)⟩, ⟨.now, 7⟩,
    ⟨.park { id := "s:0/2", sinkName := "s", schema := "public", table := "users", operation := "INSERT",
             lsn := "0/2", error := "rejected", attempts := 1, firstFailedAt := 7, lastFailedAt := 7,
             event := b }, none⟩,
    ⟨.clearFailure "s" "0/2", ()⟩]

theorem data_errors_isolated_iff_rejected :
    DeliveredIn rejectedTrace (statusInsert "0/1") ∧ ParkedIn rejectedTrace (statusInsert "0/2") := by
  have hdata : ∀ x ∈ rejectedTrace, DataErrors secondRejected x := by
    simp [rejectedTrace, DataErrors, secondRejected, statusInsert, bareEvent]
  have hown : ∀ e err, secondRejected e = some err → err.IsData := by
    intro e err herr
    simp only [secondRejected, Option.ite_none_right_eq_some, Option.some.injEq] at herr
    rw [← herr.2]
    exact ⟨by decide, by decide, by decide, by decide, by decide⟩
  have hx : Exec ((statusSpec.build dlqConfig).process [statusInsert "0/1", statusInsert "0/2"]) rejectedTrace none :=
    .ask (.ask (.ask (.ask (.ask (.ask (.ask (.ask (.ask (.ask (.ask (.ask (.ask (.ask (.ask (.ask .ret)))))))))))))))
  have hfates : ∀ e ∈ [statusInsert "0/1", statusInsert "0/2"], ∃ out, statusSpec.fate e = .ok out := by
    intro e he
    simp only [List.mem_cons, List.not_mem_nil, or_false] at he
    rcases he with rfl | rfl <;> exact ⟨_, rfl⟩
  obtain ⟨-, hisolated⟩ := (data_errors_isolated_iff rfl (by decide) statusSpec hown _ _ _ hx hdata).mpr hfates
  have hfirst := hisolated (statusInsert "0/1") (by simp)
  have hsecond := hisolated (statusInsert "0/2") (by simp)
  exact ⟨hfirst.1 (by decide), hsecond.2 (by decide)⟩

/-- The filter fails on the DELETE: `Process` returns the error without having
asked for anything, so the INSERT is not delivered and the DELETE is not parked. -/
theorem filter_error_stalls : Exec ((statusSpec.build dlqConfig).process [statusInsert "0/1", statusDelete]) []
      (some (.permanent (.wrap "evaluate filter for public.users: no such key: status" (.new "no such key: status")))) ∧
    (∀ t r, Exec ((statusSpec.build dlqConfig).process [statusInsert "0/1", statusDelete]) t r → t = [] ∧ r ≠ none) ∧
    ¬ Isolated statusSpec (fun _ => none) [] (statusInsert "0/1") ∧ ¬ Isolated statusSpec (fun _ => none) [] statusDelete := by
  refine ⟨.ret, fun t r hx => ?_, ?_, ?_⟩
  · obtain ⟨rfl, rfl⟩ := exec_ret.mp hx
    exact ⟨rfl, by simp⟩
  · rintro ⟨hdelivered, -⟩
    obtain ⟨name, batch, hmem, -⟩ := hdelivered rfl
    cases hmem
  · rintro ⟨entry, hmem, -⟩
    cases hmem

end Gtc
