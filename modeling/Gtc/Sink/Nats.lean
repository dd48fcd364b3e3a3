/-
The NATS sink on JetStream: what a batch publishes, and in which order the
stream holds it.

A `Process` sends its messages in windows without waiting for each, so the
server can reject one message and persist a later one of the same row; the
retry sends both again, the later one is a known message ID, and the earlier
one is stored behind it (`rejected_publish_reorders`). Rows stay in event order
in every run in which no attempt persists a message of a row past an earlier
one of that row that it did not persist (`row_order_kept`).
-/
import Gtc.Lib.History
import Gtc.Sink.Keys
import Mathlib.Data.Set.Function

namespace Gtc

open Lib

variable {V : Type}

/-! ## Messages -/

/-- `nats.Msg`, with its payload before it is marshalled. -/
structure NatsMsg (V : Type) where
  subject : String
  event : CDCEvent V
deriving DecidableEq

/-- `jetstream.WithMsgID(ids[i])`. -/
def NatsMsg.id (msg : NatsMsg V) : String := msg.event.id

structure NatsSink (V : Type) where
  resolver : Option (KeyResolver V)
  subjectPrefix : String
  /-- The error of `sonic.Marshal`, for an event it cannot marshal. -/
  marshal : CDCEvent V → Option Err

def sanitizeSubject (subject : String) : String :=
  subject.map fun r => if r ∈ ['*', '>', ' ', '\t', '\n', '\r'] then '_' else r

namespace NatsSink

variable (s : NatsSink V)

def shouldProcess (event : CDCEvent V) : Bool :=
  match s.resolver with
  | none => true
  | some resolver => resolver.shouldProcess event.schema event.table

def subject (event : CDCEvent V) : Except Err String :=
  match s.resolver with
  | none => .ok (sanitizeSubject (s.subjectPrefix ++ "." ++ event.schema ++ "." ++ event.table))
  | some resolver =>
    match resolver.generateKey event with
    | .error err => .error (.wrap ("build subject for " ++ event.fullTableName ++ ": " ++ err.error) err)
    | .ok subject => .ok (sanitizeSubject subject)

def message (event : CDCEvent V) : Except Err (NatsMsg V) := do
  let subject ← s.subject event
  match s.marshal event with
  | some err => throw (.wrap ("marshal payload for event " ++ event.id ++ ": " ++ err.error) err)
  | none => return { subject, event }

/-- The first loop of `Process`. -/
def messages : List (CDCEvent V) → Except Err (List (NatsMsg V))
  | [] => .ok []
  | event :: events => do
    if !s.shouldProcess event then messages events
    else
      let msg ← s.message event
      return msg :: (← messages events)

end NatsSink

/-! ## The server -/

/-- A JetStream stream. Its duplicate window is taken to cover the whole run. -/
structure JetStream (V : Type) where
  stream : List (NatsMsg V) := []

/-- A message whose ID is known is acknowledged and not stored again. -/
def JetStream.persist (js : JetStream V) (msg : NatsMsg V) : JetStream V :=
  if js.stream.any (·.id == msg.id) then js else { stream := js.stream ++ [msg] }

/-- How a publish that was sent ends: acknowledged, failed, or without an answer
before the timeout. Only an acknowledgement tells whether the server persisted
the message. -/
inductive PubAck where
  | ok
  | err (persisted : Bool) (err : Err)
  | lost (persisted : Bool)
deriving DecidableEq, Repr

def PubAck.persisted : PubAck → Bool
  | ok => true
  | err persisted _ => persisted
  | lost persisted => persisted

/-- What becomes of the `i`-th publish of an attempt: `PublishMsgAsync` fails, or
returns a future. -/
abbrev Fates := ℕ → Except Err PubAck

def Fates.persists (fates : Fates) (i : ℕ) : Bool :=
  match fates i with
  | .error _ => false
  | .ok ack => ack.persisted

/-! ## Publishing -/

/-- The sending loop of `publishWindow`, from the `i`-th publish of the attempt:
the futures, or the error that stopped it. -/
def sendWindow (fates : Fates) : ℕ → List (NatsMsg V) → JetStream V → Except Err (List PubAck) × JetStream V
  | _, [], js => (.ok [], js)
  | i, msg :: msgs, js =>
    match fates i with
    | .error err => (.error (.wrap ("publish " ++ msg.subject ++ ": " ++ err.error) err), js)
    | .ok ack =>
      let (futures, js) := sendWindow fates (i + 1) msgs (if ack.persisted then js.persist msg else js)
      (futures.map (ack :: ·), js)

/-- The waiting loop of `publishWindow`. -/
def awaitWindow : List (NatsMsg V × PubAck) → Option Err
  | [] => none
  | (_, .ok) :: rest => awaitWindow rest
  | (msg, .err _ err) :: _ =>
    some (.wrap ("publish " ++ msg.subject ++ " (event " ++ msg.id ++ "): " ++ err.error) err)
  | (_, .lost _) :: _ =>
    some (.wrap ("await publish acks: " ++ Err.error .deadlineExceeded) .deadlineExceeded)

def publishWindow (fates : Fates) (start : ℕ) (msgs : List (NatsMsg V)) (js : JetStream V) : Option Err × JetStream V :=
  match sendWindow fates start msgs js with
  | (.error err, js) => (some err, js)
  | (.ok futures, js) => (awaitWindow (msgs.zip futures), js)

def publishWindowSize : ℕ := 1024

/-- The loop over the windows; every window takes a message, so their number is
fuel enough. -/
def publishWindows (fates : Fates) : ℕ → ℕ → List (NatsMsg V) → JetStream V → Option Err × JetStream V
  | 0, _, _, js => (none, js)
  | fuel + 1, start, msgs, js =>
    if msgs.isEmpty then (none, js)
    else
      match publishWindow fates start (msgs.take publishWindowSize) js with
      | (some err, js) => (some err, js)
      | (none, js) => publishWindows fates fuel (start + publishWindowSize) (msgs.drop publishWindowSize) js

/-- `Sink.Process` with JetStream enabled. -/
def NatsSink.process (s : NatsSink V) (fates : Fates) (events : List (CDCEvent V)) (js : JetStream V) :
    Option Err × JetStream V :=
  match s.messages events with
  | .error err => (some (.permanent err), js)
  | .ok msgs => publishWindows fates msgs.length 0 msgs js

/-! ## What an attempt stores -/

/-- The messages the server persists, when the first of them is the `i`-th
publish of the attempt. -/
def accepted (fates : Fates) : ℕ → List (NatsMsg V) → List (NatsMsg V)
  | _, [] => []
  | i, msg :: msgs => if fates.persists i then msg :: accepted fates (i + 1) msgs else accepted fates (i + 1) msgs

theorem accepted_append (fates : Fates) (i : ℕ) (msgs msgs' : List (NatsMsg V)) :
    accepted fates i (msgs ++ msgs') = accepted fates i msgs ++ accepted fates (i + msgs.length) msgs' := by
  induction msgs generalizing i with
  | nil => rfl
  | cons msg msgs ih =>
    have hlen : i + (msgs.length + 1) = i + 1 + msgs.length := by omega
    simp only [List.cons_append, accepted, ih, List.length_cons, hlen]
    split <;> rfl

/-- `msgs` was published from the `start`-th publish on: a first part of it was
sent, the server stored what it persisted of that, and nil was returned only
after all of it was persisted. -/
def Publishes (fates : Fates) (start : ℕ) (msgs : List (NatsMsg V)) (js : JetStream V) (out : Option Err × JetStream V) :
    Prop :=
  ∃ sent rest, msgs = sent ++ rest ∧ out.2 = (accepted fates start sent).foldl JetStream.persist js ∧
    (out.1 = none → rest = [] ∧ ∀ i < sent.length, fates.persists (start + i) = true)

theorem sendWindow_spec (fates : Fates) (start : ℕ) (msgs : List (NatsMsg V)) (js : JetStream V) :
    ∃ sent rest, msgs = sent ++ rest ∧
      (sendWindow fates start msgs js).2 = (accepted fates start sent).foldl JetStream.persist js ∧
      ∀ futures, (sendWindow fates start msgs js).1 = .ok futures →
        rest = [] ∧ futures.length = sent.length ∧ ∀ i ack, futures[i]? = some ack → fates (start + i) = .ok ack := by
  induction msgs generalizing start js with
  | nil => exact ⟨[], [], rfl, rfl, fun futures h => by cases h; simp⟩
  | cons msg msgs ih =>
    cases hfate : fates start with
    | error err => exact ⟨[], msg :: msgs, rfl, by simp [sendWindow, hfate, accepted], by simp [sendWindow, hfate]⟩
    | ok ack =>
      obtain ⟨sent, rest, rfl, hjs, hok⟩ := ih (start + 1) (if ack.persisted then js.persist msg else js)
      refine ⟨msg :: sent, rest, rfl, ?_, ?_⟩
      · simp only [sendWindow, hfate, hjs, accepted, Fates.persists]
        split <;> simp
      · intro futures h
        simp only [sendWindow, hfate] at h
        cases hrest : (sendWindow fates (start + 1) (sent ++ rest) (if ack.persisted then js.persist msg else js)).1 with
        | error err => rw [hrest] at h; cases h
        | ok futures' =>
          rw [hrest] at h
          cases h
          obtain ⟨hnil, hlen, hfutures⟩ := hok futures' hrest
          refine ⟨hnil, by simp [hlen], fun i a hi => ?_⟩
          cases i with
          | zero => cases hi; exact hfate
          | succ i =>
            rw [show start + (i + 1) = start + 1 + i by omega]
            exact hfutures i a hi

theorem awaitWindow_eq_none {futures : List (NatsMsg V × PubAck)} (h : awaitWindow futures = none) :
    ∀ f ∈ futures, f.2 = .ok := by
  induction futures with
  | nil => simp
  | cons f futures ih =>
    obtain ⟨msg, ack⟩ := f
    cases ack with
    | ok => simpa using ih h
    | err persisted err => cases h
    | lost persisted => cases h

theorem publishWindow_spec (fates : Fates) (start : ℕ) (msgs : List (NatsMsg V)) (js : JetStream V) :
    Publishes fates start msgs js (publishWindow fates start msgs js) := by
  obtain ⟨sent, rest, hmsgs, hjs, hok⟩ := sendWindow_spec fates start msgs js
  refine ⟨sent, rest, hmsgs, ?_, ?_⟩
  · rw [← hjs, publishWindow]
    split <;> simp_all
  · intro h
    unfold publishWindow at h
    split at h
    · cases h
    · rename_i futures js' hsend
      obtain ⟨rfl, hlen, hfutures⟩ := hok futures (by rw [hsend])
      refine ⟨rfl, fun i hi => ?_⟩
      have hi' : i < futures.length := hlen ▸ hi
      have hmem : (msgs.zip futures)[i]? = some (sent[i], futures[i]) := by
        simp [hmsgs, List.getElem?_zip_eq_some, hi]
      have hack : futures[i] = .ok := awaitWindow_eq_none h _ (List.mem_of_getElem? hmem)
      rw [Fates.persists, hfutures i .ok (by rw [List.getElem?_eq_getElem hi', hack])]
      rfl

theorem publishWindows_spec (fates : Fates) {fuel : ℕ} {msgs : List (NatsMsg V)} (hfuel : msgs.length ≤ fuel)
    (start : ℕ) (js : JetStream V) : Publishes fates start msgs js (publishWindows fates fuel start msgs js) := by
  induction fuel generalizing start msgs js with
  | zero =>
    obtain rfl := List.eq_nil_of_length_eq_zero (Nat.le_zero.mp hfuel)
    exact ⟨[], [], rfl, rfl, fun _ => ⟨rfl, by simp⟩⟩
  | succ fuel ih =>
    cases msgs with
    | nil => exact ⟨[], [], rfl, rfl, fun _ => ⟨rfl, by simp⟩⟩
    | cons msg msgs =>
      obtain ⟨sent, rest, hwindow, hjs, hok⟩ :=
        publishWindow_spec fates start ((msg :: msgs).take publishWindowSize) js
      unfold publishWindows
      simp only [List.isEmpty_cons, Bool.false_eq_true, if_false]
      split
      · rename_i err js' hout
        rw [hout] at hjs
        refine ⟨sent, rest ++ (msg :: msgs).drop publishWindowSize, ?_, hjs, by simp⟩
        rw [← List.append_assoc, ← hwindow, List.take_append_drop]
      · rename_i js' hout
        rw [hout] at hjs hok
        obtain ⟨rfl, hpersisted⟩ := hok rfl
        rw [List.append_nil] at hwindow
        have hdrop : ((msg :: msgs).drop publishWindowSize).length ≤ fuel := by
          rw [List.length_drop, publishWindowSize]
          simp only [List.length_cons] at hfuel ⊢
          omega
        obtain ⟨sent', rest', hrest, hjs', hok'⟩ := ih hdrop (start + publishWindowSize) js'
        by_cases hlong : publishWindowSize ≤ (msg :: msgs).length
        · have hlen : sent.length = publishWindowSize := by rw [← hwindow, List.length_take, Nat.min_eq_left hlong]
          refine ⟨sent ++ sent', rest', ?_, ?_, ?_⟩
          · rw [List.append_assoc, ← hrest, ← hwindow, List.take_append_drop]
          · rw [accepted_append, List.foldl_append, hlen, ← hjs, hjs']
          · intro hnone
            obtain ⟨hnil, hpersisted'⟩ := hok' hnone
            refine ⟨hnil, fun i hi => ?_⟩
            by_cases hi' : i < sent.length
            · exact hpersisted i hi'
            · have hlater := hpersisted' (i - publishWindowSize) (by simp at hi; omega)
              rwa [show start + publishWindowSize + (i - publishWindowSize) = start + i by omega] at hlater
        · have hnil : (msg :: msgs).drop publishWindowSize = [] := List.drop_eq_nil_of_le (by omega)
          have htake : (msg :: msgs).take publishWindowSize = msg :: msgs := List.take_of_length_le (by omega)
          have hsame : publishWindows fates fuel (start + publishWindowSize) [] js' = (none, js') := by
            cases fuel <;> rfl
          rw [hnil, hsame]
          exact ⟨sent, [], by rw [← hwindow, htake, List.append_nil], hjs, fun _ => ⟨rfl, hpersisted⟩⟩

theorem NatsSink.message_event {s : NatsSink V} {event : CDCEvent V} {msg : NatsMsg V} (h : s.message event = .ok msg) :
    msg.event = event := by
  unfold NatsSink.message at h
  cases hsubject : s.subject event with
  | error err => rw [hsubject] at h; cases h
  | ok subject =>
    rw [hsubject] at h
    cases hmarshal : s.marshal event with
    | none => simp only [hmarshal] at h; cases h; rfl
    | some err => simp only [hmarshal] at h; cases h

/-- One message for each event of a table the sink takes, in order. -/
theorem NatsSink.messages_events {s : NatsSink V} {events : List (CDCEvent V)} {msgs : List (NatsMsg V)}
    (h : s.messages events = .ok msgs) : msgs.map (·.event) = events.filter s.shouldProcess := by
  induction events generalizing msgs with
  | nil => cases h; rfl
  | cons event events ih =>
    unfold NatsSink.messages at h
    by_cases hshould : s.shouldProcess event = true
    · simp only [hshould, Bool.not_true, Bool.false_eq_true, if_false] at h
      cases hmsg : s.message event with
      | error err => rw [hmsg] at h; cases h
      | ok msg =>
        rw [hmsg] at h
        cases hrest : s.messages events with
        | error err => rw [hrest] at h; cases h
        | ok rest =>
          rw [hrest] at h
          cases h
          simp [hshould, NatsSink.message_event hmsg, ih hrest]
    · simp only [hshould] at h
      simpa [hshould] using ih h

/-! ## Runs -/

section Runs

variable [DecidableEq V]

/-- The sink between two attempts: the stream, the batches that returned nil, and
the batch that has to be retried. -/
structure Publisher (V : Type) where
  js : JetStream V := {}
  done : List (CDCEvent V) := []
  retrying : Option (List (CDCEvent V)) := none

structure PublishAttempt (V : Type) where
  batch : List (CDCEvent V)
  fates : Fates

/-- The events handed to the sink so far. -/
def Publisher.seen (p : Publisher V) : List (CDCEvent V) := p.done ++ p.retrying.getD []

/-- One `Process`: of the batch that failed, if one did, or of the next one. -/
def NatsSink.step (s : NatsSink V) (p : Publisher V) (a : PublishAttempt V) : Option (Publisher V) :=
  if p.retrying = none ∨ p.retrying = some a.batch then
    match s.process a.fates a.batch p.js with
    | (none, js) => some { js, done := p.done ++ a.batch, retrying := none }
    | (some _, js) => some { js, done := p.done, retrying := some a.batch }
  else none

def JetStream.events (js : JetStream V) : List (CDCEvent V) := js.stream.map (·.event)

variable {R : Type} [DecidableEq R] (row : CDCEvent V → R)

/-- The messages of a row, in stream order. -/
def JetStream.ofRow (js : JetStream V) (r : R) : List (CDCEvent V) := js.events.filter (row · = r)

/-- The events of a row that the sink publishes, in the order of their first
delivery. -/
def NatsSink.rowEvents (s : NatsSink V) (events : List (CDCEvent V)) (r : R) : List (CDCEvent V) :=
  (arrivals (events.filter s.shouldProcess)).filter (row · = r)

/-- No message of a row is persisted past an earlier one of the row that is
neither persisted in the attempt nor in the stream already. -/
def NatsSink.KeepsRows (s : NatsSink V) (p : Publisher V) (a : PublishAttempt V) : Prop :=
  ∀ msgs, s.messages a.batch = .ok msgs → ∀ i j earlier later, i < j → msgs[i]? = some earlier →
    msgs[j]? = some later → row earlier.event = row later.event → a.fates.persists j = true →
    a.fates.persists i = true ∨ earlier.event ∈ p.js.events

/-! ## The order of a row -/

variable {row} {events : Set (CDCEvent V)}

variable {js start : JetStream V} {msg : NatsMsg V} {fates : Fates}

/-- Where identifiers tell events apart, the server's deduplication is by event. -/
theorem JetStream.events_persist (hids : Set.InjOn CDCEvent.id events)
    (hjs : ∀ e ∈ js.events, e ∈ events) (hmsg : msg.event ∈ events) :
    (js.persist msg).events = arrive js.events msg.event := by
  have hknown : js.stream.any (·.id == msg.id) = true ↔ msg.event ∈ js.events := by
    simp only [List.any_eq_true, beq_iff_eq, JetStream.events, List.mem_map]
    constructor
    · rintro ⟨m, hm, hid⟩
      exact ⟨m, hm, hids (hjs _ (List.mem_map_of_mem hm)) hmsg hid⟩
    · rintro ⟨m, hm, heq⟩
      exact ⟨m, hm, by rw [NatsMsg.id, heq, NatsMsg.id]⟩
  unfold JetStream.persist arrive
  by_cases h : msg.event ∈ js.events
  · simp [h, hknown.mpr h]
  · rw [if_neg h, if_neg (by rw [hknown]; exact h)]
    simp [JetStream.events]

/-- The stream during an attempt that has `before` behind it: every row holds a
first part of its events `all`, nothing of `start` is missing, and what the
attempt persisted of `before` is there. -/
structure InRowOrder (row : CDCEvent V → R) (events : Set (CDCEvent V)) (all : List (CDCEvent V))
    (start : JetStream V) (fates : Fates) (before : List (NatsMsg V)) (js : JetStream V) : Prop where
  known : ∀ e ∈ js.events, e ∈ events
  kept : ∀ e ∈ start.events, e ∈ js.events
  stored : ∀ i msg, before[i]? = some msg → fates.persists i = true → msg.event ∈ js.events
  order : ∀ r, js.ofRow row r <+: (arrivals all).filter (row · = r)

/-- A message persisted past no missing one of its row goes to the end of its
row's events. -/
theorem InRowOrder.persist (hids : Set.InjOn CDCEvent.id events) {done : List (CDCEvent V)}
    {before rest : List (NatsMsg V)} (hmsg : msg.event ∈ events) (hdone : ∀ e ∈ done, e ∈ start.events)
    (hrow : ∀ i earlier, before[i]? = some earlier → row earlier.event = row msg.event →
      fates.persists i = true ∨ earlier.event ∈ start.events)
    (h : InRowOrder row events (done ++ (before ++ msg :: rest).map (·.event)) start fates before js) :
    InRowOrder row events (done ++ (before ++ msg :: rest).map (·.event)) start fates (before ++ [msg])
      (js.persist msg) := by
  have hpersist := JetStream.events_persist hids h.known hmsg
  have hmem {e : CDCEvent V} : e ∈ (js.persist msg).events ↔ e ∈ js.events ∨ e = msg.event := by
    rw [hpersist, mem_arrive]
  refine ⟨fun e he => ?_, fun e he => hmem.mpr (.inl (h.kept e he)), fun i m hm hfate => ?_, fun r => ?_⟩
  · rcases hmem.mp he with he | rfl
    · exact h.known e he
    · exact hmsg
  · rw [List.getElem?_append] at hm
    split at hm
    · exact hmem.mpr (.inl (h.stored i m hm hfate))
    · exact hmem.mpr (.inr (by rw [List.mem_singleton.mp (List.mem_of_getElem? hm)]))
  · by_cases hnew : msg.event ∈ js.events
    · rw [JetStream.ofRow, hpersist, arrive, if_pos hnew]
      exact h.order r
    · rw [JetStream.ofRow, hpersist, arrive, if_neg hnew, List.filter_append]
      by_cases hr : row msg.event = r
      · -- All earlier messages of the row are in the stream, so its part of the
        -- stream ends where `msg` comes next.
        subst hr
        let past := done ++ before.map (·.event)
        have hall : done ++ (before ++ msg :: rest).map (·.event) = past ++ msg.event :: rest.map (·.event) := by
          simp [past]
        have hpast : ∀ e ∈ past, row e = row msg.event → e ∈ js.events := by
          intro e he hre
          rcases List.mem_append.mp he with he | he
          · exact h.kept e (hdone e he)
          · obtain ⟨m, hm, rfl⟩ := List.mem_map.mp he
            obtain ⟨i, hi⟩ := List.getElem?_of_mem hm
            rcases hrow i m hi hre with hfate | hstart
            · exact h.stored i m hi hfate
            · exact h.kept _ hstart
        have hfirst : msg.event ∉ arrivals past := fun hmem => hnew (hpast _ (mem_arrivals.mp hmem) rfl)
        have hnext : arrivals past ++ [msg.event] <+: arrivals (past ++ msg.event :: rest.map (·.event)) := by
          have := arrivals_grows (past ++ [msg.event]) (rest.map (·.event))
          rwa [arrivals_concat, arrive, if_neg hfirst, List.append_assoc, List.singleton_append] at this
        have hrowNext := hnext.filter (fun e => decide (row e = row msg.event))
        obtain ⟨tail, htail⟩ := hrowNext
        have horder := h.order (row msg.event)
        rw [hall] at horder ⊢
        have hstops : js.ofRow row (row msg.event) = (arrivals past).filter (row · = row msg.event) := by
          refine eq_of_stops_before msg.event tail ?_ ?_ ((nodup_arrivals past).filter _) ?_
          · rw [← htail] at horder
            simpa using horder
          · intro e he
            obtain ⟨he, hre⟩ := List.mem_filter.mp he
            exact List.mem_filter.mpr ⟨hpast e (mem_arrivals.mp he) (by simpa using hre), hre⟩
          · exact fun he => hnew (List.mem_filter.mp he).1
        rw [JetStream.ofRow] at hstops
        rw [hstops, ← List.filter_append]
        exact hnext.filter _
      · simpa [hr, JetStream.ofRow] using h.order r

/-- A rejected message leaves the stream as it is. -/
theorem InRowOrder.reject {all : List (CDCEvent V)} {before : List (NatsMsg V)}
    (hfate : fates.persists before.length = false) (h : InRowOrder row events all start fates before js) :
    InRowOrder row events all start fates (before ++ [msg]) js := by
  refine { h with stored := fun i m hm hi => ?_ }
  rw [List.getElem?_append] at hm
  split at hm
  · exact h.stored i m hm hi
  · have hlast : i - before.length = 0 := by
      have := (List.getElem?_eq_some_iff.mp hm).1
      simpa using this
    rw [show i = before.length by omega, hfate] at hi
    cases hi

/-- The messages of an attempt that were sent, one after the other. -/
theorem InRowOrder.send (hids : Set.InjOn CDCEvent.id events) {done : List (CDCEvent V)}
    {msgs : List (NatsMsg V)} (hmsgs : ∀ msg ∈ msgs, msg.event ∈ events) (hdone : ∀ e ∈ done, e ∈ start.events)
    (hrows : ∀ i j earlier later, i < j → msgs[i]? = some earlier → msgs[j]? = some later →
      row earlier.event = row later.event → fates.persists j = true →
      fates.persists i = true ∨ earlier.event ∈ start.events)
    (sent rest : List (NatsMsg V)) : ∀ {before : List (NatsMsg V)} {js : JetStream V}, msgs = before ++ (sent ++ rest) →
      InRowOrder row events (done ++ msgs.map (·.event)) start fates before js →
      InRowOrder row events (done ++ msgs.map (·.event)) start fates (before ++ sent)
        ((accepted fates before.length sent).foldl JetStream.persist js) := by
  induction sent with
  | nil =>
    intro before js _ h
    simpa [accepted] using h
  | cons msg sent ih =>
    intro before js hsplit h
    have hsplit' : msgs = (before ++ [msg]) ++ (sent ++ rest) := by simp [hsplit]
    have hlen : before.length + 1 = (before ++ [msg]).length := by simp
    rw [show before ++ msg :: sent = (before ++ [msg]) ++ sent by simp]
    by_cases hfate : fates.persists before.length = true
    · simp only [accepted, hfate, if_true, List.foldl_cons, hlen]
      refine ih hsplit' ?_
      have hall : msgs = before ++ msg :: (sent ++ rest) := hsplit
      have hrow : ∀ i earlier, before[i]? = some earlier → row earlier.event = row msg.event →
          fates.persists i = true ∨ earlier.event ∈ start.events := by
        intro i earlier hi hr
        have hlt := (List.getElem?_eq_some_iff.mp hi).1
        refine hrows i before.length earlier msg hlt ?_ ?_ hr hfate
        · rw [hall, List.getElem?_append_left hlt, hi]
        · simp [hall]
      rw [hall] at h ⊢
      exact h.persist hids (hmsgs msg (by simp [hall])) hdone hrow
    · simp only [accepted, hfate, hlen]
      exact ih hsplit' (h.reject (by simpa using hfate))

/-- What holds between two attempts. -/
structure RowsOk (s : NatsSink V) (row : CDCEvent V → R) (events : Set (CDCEvent V)) (p : Publisher V) : Prop where
  known : ∀ e ∈ p.js.events, e ∈ events
  done : ∀ e ∈ p.done.filter s.shouldProcess, e ∈ p.js.events
  order : ∀ r, p.js.ofRow row r <+: s.rowEvents row p.seen r

theorem NatsSink.rowEvents_grows (s : NatsSink V) (row : CDCEvent V → R) (es es' : List (CDCEvent V)) (r : R) :
    s.rowEvents row es r <+: s.rowEvents row (es ++ es') r := by
  unfold NatsSink.rowEvents
  rw [List.filter_append]
  exact (arrivals_grows _ _).filter _

theorem RowsOk.step {s : NatsSink V} (hids : Set.InjOn CDCEvent.id events) {p p' : Publisher V} {a : PublishAttempt V}
    (hbatch : ∀ e ∈ a.batch, e ∈ events) (hrows : s.KeepsRows row p a) (h : RowsOk s row events p)
    (hstep : s.step p a = some p') : RowsOk s row events p' := by
  unfold NatsSink.step at hstep
  split at hstep
  swap
  · cases hstep
  rename_i hnext
  -- Whether the batch is a retry or new, the events seen are now `done ++ batch`.
  have hseen : ∀ r, p.js.ofRow row r <+: s.rowEvents row (p.done ++ a.batch) r := by
    intro r
    rcases hnext with hnew | hretry
    · have horder := h.order r
      rw [Publisher.seen, hnew, Option.getD_none, List.append_nil] at horder
      exact horder.trans (s.rowEvents_grows row _ _ r)
    · simpa [Publisher.seen, hretry] using h.order r
  cases hmsgs : s.messages a.batch with
  | error err =>
    simp only [NatsSink.process, hmsgs, Option.some.injEq] at hstep
    subst hstep
    exact ⟨h.known, h.done, hseen⟩
  | ok msgs =>
    have hevents := NatsSink.messages_events hmsgs
    obtain ⟨sent, rest, hsplit, hjs, hnil⟩ := publishWindows_spec a.fates (le_refl msgs.length) 0 p.js
    have hstart : InRowOrder row events (p.done.filter s.shouldProcess ++ msgs.map (·.event)) p.js a.fates [] p.js := by
      refine ⟨h.known, fun _ he => he, by simp, fun r => ?_⟩
      have := hseen r
      rwa [NatsSink.rowEvents, List.filter_append, ← hevents] at this
    have hknown : ∀ msg ∈ msgs, msg.event ∈ events := by
      intro msg hmsg
      have hmem : msg.event ∈ msgs.map (·.event) := List.mem_map_of_mem hmsg
      rw [hevents] at hmem
      exact hbatch _ (List.mem_filter.mp hmem).1
    have hend := hstart.send hids hknown h.done (hrows msgs hmsgs) sent rest (by simpa using hsplit)
    simp only [List.nil_append, List.length_nil, ← hjs] at hend
    have horder : ∀ r, (publishWindows a.fates msgs.length 0 msgs p.js).2.ofRow row r <+:
        s.rowEvents row (p.done ++ a.batch) r := by
      intro r
      have := hend.order r
      rwa [hevents, ← List.filter_append] at this
    simp only [NatsSink.process, hmsgs] at hstep
    cases hout : (publishWindows a.fates msgs.length 0 msgs p.js).1 with
    | some err =>
      rw [show publishWindows a.fates msgs.length 0 msgs p.js = (some err, _) from Prod.ext hout rfl] at hstep
      cases hstep
      exact ⟨hend.known, fun e he => hend.kept e (h.done e he), horder⟩
    | none =>
      rw [show publishWindows a.fates msgs.length 0 msgs p.js = (none, _) from Prod.ext hout rfl] at hstep
      cases hstep
      obtain ⟨rfl, hall⟩ := hnil hout
      refine ⟨hend.known, fun e he => ?_, fun r => by simpa [Publisher.seen] using horder r⟩
      rw [List.filter_append, ← hevents] at he
      rcases List.mem_append.mp he with he | he
      · exact hend.kept e (h.done e he)
      · obtain ⟨msg, hmsg, rfl⟩ := List.mem_map.mp he
        rw [hsplit, List.append_nil] at hmsg
        obtain ⟨i, hi⟩ := List.getElem?_of_mem hmsg
        have hfate := hall i (List.getElem?_eq_some_iff.mp hi).1
        exact hend.stored i msg hi (by simpa using hfate)

/-- **When rows stay in order on JetStream.** In every run whose attempts are of
events that their identifiers tell apart and never persist a message of a row
past an earlier one of that row that is missing, the stream holds, of every
row, a first part of its events in the order of their delivery; and whenever no
batch is to be retried it holds all of them, so the row's last message is its
newest change. -/
theorem row_order_kept (s : NatsSink V) (row : CDCEvent V → R) (events : Set (CDCEvent V))
    (hids : Set.InjOn CDCEvent.id events) {p : Publisher V}
    (h : Reaches s.step (fun p a => (∀ e ∈ a.batch, e ∈ events) ∧ s.KeepsRows row p a) {} p) (r : R) :
    p.js.ofRow row r <+: s.rowEvents row p.seen r ∧
      (p.retrying = none → p.js.ofRow row r = s.rowEvents row p.done r) := by
  have hok : RowsOk s row events p := by
    refine h.invariant (fun p a p' hp ha hstep => hp.step hids ha.1 ha.2 hstep) ⟨?_, ?_, fun r => ?_⟩
    · exact fun e he => by cases he
    · exact fun e he => by cases he
    · exact List.nil_prefix
  refine ⟨hok.order r, fun hnone => ?_⟩
  have horder := hok.order r
  rw [Publisher.seen, hnone, Option.getD_none, List.append_nil] at horder
  refine horder.eq_of_length_le (List.subperm_of_subset ((nodup_arrivals _).filter _) fun e he => ?_).length_le
  obtain ⟨he, hre⟩ := List.mem_filter.mp he
  exact List.mem_filter.mpr ⟨hok.done e (mem_arrivals.mp he), hre⟩

end Runs

/-! ## A rejected publish -/

def plainNats : NatsSink ℕ where
  resolver := none
  subjectPrefix := "cdc"
  marshal _ := none

/-- The row with this primary key, changed to `name`. -/
def userChange (id : String) (key name : ℕ) : CDCEvent ℕ :=
  { bareEvent id with operation := .update, newData := some [("id", some key), ("name", some name)] }

def userKey (event : CDCEvent ℕ) : Option (Option ℕ) := event.newData.bind (·.get "id")

def firstChange : CDCEvent ℕ := userChange "0/10" 1 1

def secondChange : CDCEvent ℕ := userChange "0/20" 1 2

def otherChange : CDCEvent ℕ := userChange "0/30" 2 1

def allAcked : Fates := fun _ => .ok .ok

/-- The server rejects the `k`-th publish and acknowledges the others. -/
def rejecting (k : ℕ) : Fates := fun i => .ok (if i = k then .err false (.new "nats: no response from stream") else .ok)

theorem allAcked_keepsRows (batch : List (CDCEvent ℕ)) (p : Publisher ℕ) :
    plainNats.KeepsRows userKey p ⟨batch, allAcked⟩ :=
  fun _ _ _ _ _ _ _ _ _ _ _ => .inl rfl

/-- A rejection between two messages of another row. -/
theorem rejecting_keepsRows (p : Publisher ℕ) :
    plainNats.KeepsRows userKey p ⟨[firstChange, otherChange, secondChange], rejecting 1⟩ := by
  intro msgs hmsgs i j earlier later hij hi hj hrow _
  cases hmsgs
  by_cases hrejected : i = 1
  · subst hrejected
    cases hi
    obtain rfl : j = 2 := by
      have := (List.getElem?_eq_some_iff.mp hj).1
      simp at this
      omega
    cases hj
    exact absurd hrow (by decide)
  · exact .inl (by simp [rejecting, Fates.persists, hrejected, PubAck.persisted])

theorem row_order_kept_retried : ∃ p : Publisher ℕ, p.retrying = none ∧
    p.js.events = [firstChange, secondChange, otherChange] ∧
    ∀ r, p.js.ofRow userKey r <+: plainNats.rowEvents userKey p.seen r ∧
      (p.retrying = none → p.js.ofRow userKey r = plainNats.rowEvents userKey p.done r) := by
  let batch := [firstChange, otherChange, secondChange]
  obtain ⟨p, hp⟩ := Option.isSome_iff_exists.mp
    (show (runSteps plainNats.step {} [⟨batch, rejecting 1⟩, ⟨batch, allAcked⟩]).isSome by decide +kernel)
  refine ⟨p, runSteps_observe (f := Publisher.retrying) hp (by decide +kernel),
    runSteps_observe (f := fun p => p.js.events) hp (by decide +kernel), ?_⟩
  refine row_order_kept plainNats userKey {e | e ∈ batch} ?_ (reaches_of_runSteps_ok ?_ hp)
  · intro e he e' he' hid
    exact (by decide : ∀ e ∈ batch, ∀ e' ∈ batch, e.id = e'.id → e = e') e he e' he' hid
  · intro a ha p
    rcases List.mem_cons.mp ha with rfl | ha
    · exact ⟨fun e he => he, rejecting_keepsRows p⟩
    · rw [List.mem_singleton.mp ha]
      exact ⟨fun e he => he, allAcked_keepsRows batch p⟩

/-- Two changes of one row: the first is rejected and the second persisted; the
retry is acknowledged for both, and the stream ends with the older change. -/
theorem rejected_publish_reorders : ∃ p, Reaches plainNats.step (fun _ _ => True) {} p ∧ p.retrying = none ∧
    p.done = [firstChange, secondChange] ∧ userKey firstChange = userKey secondChange ∧
    p.js.events = [secondChange, firstChange] := by
  let batch := [firstChange, secondChange]
  obtain ⟨p, hp⟩ := Option.isSome_iff_exists.mp
    (show (runSteps plainNats.step {} [⟨batch, rejecting 0⟩, ⟨batch, allAcked⟩]).isSome by decide +kernel)
  refine ⟨p, reaches_of_runSteps hp, ?_, ?_, rfl, ?_⟩
  · exact runSteps_observe (f := Publisher.retrying) hp (by decide +kernel)
  · exact runSteps_observe (f := Publisher.done) hp (by decide +kernel)
  · exact runSteps_observe (f := fun p => p.js.events) hp (by decide +kernel)

end Gtc
