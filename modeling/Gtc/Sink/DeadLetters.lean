/-
The dead-letter store and retries from it: an entry is written as JSON when it
is parked and read back when it is retried.

What the sink gets on a retry has the same columns, and every column's text is
the text of the event that failed exactly if the event holds no timestamp, no
byte array and no integer of a million or more. Keys, document ids and outbox
ids are made of these texts.

The model is the store with a Redis that answers every call.
-/
import Gtc.Sink.Keys
import Gtc.Sink.Values

namespace Gtc

open Lib

/-! ## Entries as JSON -/

def marshalColumn : Option GoValue → Except Err (Option JSONText)
  | none => .ok none
  | some v => v.marshal.map some

def marshalData : Data GoValue → Except Err (Data JSONText)
  | [] => .ok []
  | (name, v) :: data => do
    let text ← marshalColumn v
    let texts ← marshalData data
    return (name, text) :: texts

/-- A nil map is null. -/
def marshalImage : Option (Data GoValue) → Except Err (Option (Data JSONText))
  | none => .ok none
  | some data => (marshalData data).map some

def unmarshalData (data : Data JSONText) : Data GoValue :=
  data.map fun c => (c.1, c.2.map fun text => .json text.unmarshal)

/-- `Operation.UnmarshalJSON`. -/
def Operation.unmarshalJSON (s : String) : Operation :=
  if s = "INSERT" then .insert
  else if s = "UPDATE" then .update
  else if s = "DELETE" then .delete
  else if s = "TRUNCATE" then .truncate
  else if s = "READ" then .read
  else .insert

/-- `json.Marshal` of an event. -/
def CDCEvent.marshal (event : CDCEvent GoValue) : Except Err (CDCEvent JSONText) := do
  let oldData ← marshalImage event.oldData
  let newData ← marshalImage event.newData
  return { event with oldData, newData }

/-- `json.Unmarshal` into an event; the operation is written as its name. -/
def CDCEvent.unmarshal (event : CDCEvent JSONText) : CDCEvent GoValue :=
  { event with
    operation := .unmarshalJSON event.operation.string
    oldData := event.oldData.map unmarshalData
    newData := event.newData.map unmarshalData }

def DeadLetterEntry.marshal (entry : DeadLetterEntry GoValue) : Except Err (DeadLetterEntry JSONText) := do
  let event ← entry.event.marshal
  return { entry with event }

def DeadLetterEntry.unmarshal (entry : DeadLetterEntry JSONText) : DeadLetterEntry GoValue :=
  { entry with event := entry.event.unmarshal }

/-! ## The store -/

def errFull : Err := .new "dead-letter queue is full"

def errNotFound : Err := .new "dead-letter entry not found"

/-- `redisStore`, with its hash and its index. -/
structure RedisStore where
  maxEntries : ℤ
  entries : List (String × DeadLetterEntry JSONText)
  /-- Entry ids by the time of their last failure. -/
  index : List (String × ℕ)

/-- `HSET` and `ZADD` of one member. -/
def putMember {α : Type} (id : String) (a : α) (members : List (String × α)) : List (String × α) :=
  (id, a) :: members.filter (·.1 ≠ id)

namespace RedisStore

variable (s : RedisStore)

def park (entry : DeadLetterEntry GoValue) : Except Err RedisStore :=
  if (s.entries.lookup entry.id).isNone ∧ 0 < s.maxEntries ∧ s.maxEntries ≤ s.index.length then
    .error (.wrap (errFull.error ++ " (" ++ toString s.index.length ++ " entries)") errFull)
  else
    match entry.marshal with
    | .error err => .error (.wrap ("dlq: marshal entry: " ++ err.error) err)
    | .ok stored =>
      .ok { s with entries := putMember entry.id stored s.entries
                   index := putMember entry.id entry.lastFailedAt s.index }

def get (id : String) : Except Err (DeadLetterEntry GoValue) :=
  match s.entries.lookup id with
  | none => .error errNotFound
  | some stored => .ok stored.unmarshal

def remove (id : String) : Except Err RedisStore :=
  if (s.entries.lookup id).isNone then .error errNotFound
  else .ok { s with entries := s.entries.filter (·.1 ≠ id), index := s.index.filter (·.1 ≠ id) }

/-- `Manager.Retry`, with the sinks of this instance by name and what each
answers to an event. A refused event is parked again, if that is possible. -/
def retry (sinks : String → Option (CDCEvent GoValue → Option Err)) (now : ℕ) (id : String) :
    Option Err × RedisStore :=
  match s.get id with
  | .error err => (some err, s)
  | .ok entry =>
    match sinks entry.sinkName with
    | none => (some (.new ("sink " ++ goQuote entry.sinkName ++ " is not active in this instance")), s)
    | some process =>
      match process entry.event with
      | some procErr =>
        let again := { entry with attempts := entry.attempts + 1, error := procErr.error, lastFailedAt := now }
        (some (.wrap ("retry failed: " ++ procErr.error) procErr), (s.park again).toOption.getD s)
      | none =>
        match s.remove id with
        | .error err => (some (.wrap ("retry succeeded but entry removal failed: " ++ err.error) err), s)
        | .ok s' => (none, s')

end RedisStore

/-! ## What comes back -/

theorem Operation.unmarshalJSON_string (op : Operation) : Operation.unmarshalJSON op.string = op := by
  cases op <;> decide

/-- Columns keep their names; each is written on its own. -/
theorem get_marshalData {data : Data GoValue} {texts : Data JSONText} (h : marshalData data = .ok texts)
    (name : String) :
    (data.get name = none ∧ texts.get name = none) ∨
      ∃ v text, data.get name = some v ∧ texts.get name = some text ∧ marshalColumn v = .ok text := by
  induction data generalizing texts with
  | nil =>
    cases h
    exact .inl ⟨rfl, rfl⟩
  | cons c data ih =>
    obtain ⟨col, v⟩ := c
    obtain ⟨text, htext, h⟩ := bind_eq_ok.mp h
    obtain ⟨texts', htexts, h⟩ := bind_eq_ok.mp h
    cases h
    by_cases hname : name = col
    · subst hname
      exact .inr ⟨v, text, List.lookup_cons_self, List.lookup_cons_self, htext⟩
    · rw [Data.get, Data.get, List.lookup_cons, List.lookup_cons, beq_false_of_ne hname]
      exact ih htexts

theorem get_unmarshalData (texts : Data JSONText) (name : String) :
    (unmarshalData texts).get name = (texts.get name).map fun text => text.map fun t => .json t.unmarshal := by
  induction texts with
  | nil => rfl
  | cons c texts ih =>
    obtain ⟨col, text⟩ := c
    by_cases hname : name = col
    · simp [unmarshalData, Data.get, hname]
    · rw [unmarshalData, List.map_cons, Data.get, Data.get, List.lookup_cons, List.lookup_cons, beq_false_of_ne hname]
      exact ih

/-- The text of a column, if the row has it. -/
def columnText (image : Option (Data GoValue)) (name : String) : Option String :=
  (image.bind (·.get name)).map (formatFieldValue GoValue.sprint)

theorem columnText_back_iff {image : Option (Data GoValue)} {stored : Option (Data JSONText)}
    (h : marshalImage image = .ok stored) (name : String) :
    columnText (stored.map unmarshalData) name = columnText image name ↔
      ∀ v, image.bind (·.get name) = some (some v) → v.KeepsText := by
  cases image with
  | none =>
    cases h
    simp [columnText]
  | some data =>
    obtain ⟨texts, htexts, rfl⟩ := map_eq_ok.mp h
    simp only [columnText, Option.map_some, Option.bind_some, get_unmarshalData]
    rcases get_marshalData htexts name with ⟨hget, hget'⟩ | ⟨v, text, hget, hget', hcolumn⟩
    · simp [hget, hget']
    · rw [hget, hget']
      cases v with
      | none =>
        cases hcolumn
        simp [formatFieldValue]
      | some v =>
        obtain ⟨t, ht, rfl⟩ := map_eq_ok.mp hcolumn
        simp only [Option.map_some, Option.some.injEq, formatFieldValue, forall_eq']
        exact GoValue.sprint_unmarshal_iff ht

/-- The event holds the value, in the row it writes or in the row it replaces. -/
def CDCEvent.Holds (event : CDCEvent GoValue) (name : String) (v : GoValue) : Prop :=
  event.newData.bind (·.get name) = some (some v) ∨ event.oldData.bind (·.get name) = some (some v)

/-- No key template tells the two contexts apart. -/
def KeyTemplateContext.Alike (c c' : KeyTemplateContext GoValue) : Prop :=
  (c.prefix_, c.schema, c.table, c.operation, c.id) = (c'.prefix_, c'.schema, c'.table, c'.operation, c'.id) ∧
    ∀ name, c.field GoValue.sprint name = c'.field GoValue.sprint name

/-- Every column of the event has the text it has in the other, and so has
every field of a key. -/
def CDCEvent.SameTexts (event event' : CDCEvent GoValue) : Prop :=
  (∀ name, columnText event.newData name = columnText event'.newData name ∧
    columnText event.oldData name = columnText event'.oldData name) ∧
  ∀ prefix_, (newKeyTemplateContext prefix_ event).Alike (newKeyTemplateContext prefix_ event')

theorem CDCEvent.marshal_eq_ok {event : CDCEvent GoValue} {stored : CDCEvent JSONText}
    (h : event.marshal = .ok stored) :
    ∃ oldData, marshalImage event.oldData = .ok oldData ∧ ∃ newData, marshalImage event.newData = .ok newData ∧
      { event with oldData, newData } = stored := by
  obtain ⟨oldData, hold, h⟩ := bind_eq_ok.mp h
  obtain ⟨newData, hnew, h⟩ := bind_eq_ok.mp h
  exact ⟨oldData, hold, newData, hnew, Except.ok.inj h⟩

theorem DeadLetterEntry.marshal_eq_ok {entry : DeadLetterEntry GoValue} {stored : DeadLetterEntry JSONText}
    (h : entry.marshal = .ok stored) : ∃ event, entry.event.marshal = .ok event ∧ { entry with event } = stored := by
  obtain ⟨event, hevent, h⟩ := bind_eq_ok.mp h
  exact ⟨event, hevent, Except.ok.inj h⟩

/-- A field of a key is a column's text. -/
theorem field_eq_columnText (prefix_ : String) (event : CDCEvent GoValue) (name : String) :
    (newKeyTemplateContext prefix_ event).field GoValue.sprint name =
      ((columnText event.newData name).or (columnText event.oldData name)).getD "" := by
  simp only [KeyTemplateContext.field, newKeyTemplateContext, columnText]
  cases event.newData.bind (·.get name) with
  | some v => rfl
  | none => cases event.oldData.bind (·.get name) <;> rfl

theorem RedisStore.get_park {s s' : RedisStore} {entry : DeadLetterEntry GoValue} (h : s.park entry = .ok s') :
    ∃ stored, entry.marshal = .ok stored ∧ s'.get entry.id = .ok stored.unmarshal := by
  rw [RedisStore.park] at h
  split at h
  · cases h
  split at h
  · cases h
  next stored hstored =>
    cases h
    exact ⟨stored, hstored, by simp [RedisStore.get, putMember]⟩

/-- **A retried dead letter renders as the event that failed exactly if all its
values keep their text.** The entry that `Park` wrote is there for `Retry`, for
the same sink. Every column of the event that the sink gets has its old text,
and every key made of its fields is the old key, if and only if no column
holds a timestamp, a byte array or an integer of a million or more, or its
negative. -/
theorem retry_renders_same_iff {s s' : RedisStore} {entry : DeadLetterEntry GoValue} (h : s.park entry = .ok s') :
    ∃ back, s'.get entry.id = .ok back ∧ back.sinkName = entry.sinkName ∧
      (back.event.SameTexts entry.event ↔ ∀ name v, entry.event.Holds name v → v.KeepsText) := by
  obtain ⟨stored, hstored, hget⟩ := RedisStore.get_park h
  obtain ⟨event, hevent, rfl⟩ := DeadLetterEntry.marshal_eq_ok hstored
  obtain ⟨oldData, hold, newData, hnew, rfl⟩ := CDCEvent.marshal_eq_ok hevent
  have hop := Operation.unmarshalJSON_string entry.event.operation
  have htexts : (∀ name, columnText (newData.map unmarshalData) name = columnText entry.event.newData name ∧
      columnText (oldData.map unmarshalData) name = columnText entry.event.oldData name) ↔
      ∀ name v, entry.event.Holds name v → v.KeepsText := by
    refine forall_congr' fun name => ?_
    rw [columnText_back_iff hnew, columnText_back_iff hold]
    constructor
    · rintro ⟨hkeep, hkeep'⟩ v (hv | hv)
      · exact hkeep v hv
      · exact hkeep' v hv
    · intro hkeep
      exact ⟨fun v hv => hkeep v (.inl hv), fun v hv => hkeep v (.inr hv)⟩
  refine ⟨_, hget, rfl, ?_⟩
  rw [← htexts]
  constructor
  · exact And.left
  · intro hsame
    refine ⟨hsame, fun prefix_ => ⟨?_, fun name => ?_⟩⟩
    · simp [newKeyTemplateContext, DeadLetterEntry.unmarshal, CDCEvent.unmarshal, hop]
    · rw [field_eq_columnText, field_eq_columnText]
      exact congrArg (Option.getD · "") (congrArg₂ Option.or (hsame name).1 (hsame name).2)

/-! ## Rows with an integer key -/

def emptyDeadLetters : RedisStore := { maxEntries := 100, entries := [], index := [] }

/-- The insert of an order, refused by the sink `redis-json`. -/
def orderEntry (id : Int64) : DeadLetterEntry GoValue :=
  { id := "redis-json:0/1-0", sinkName := "redis-json", schema := "public", table := "orders", operation := "INSERT"
    lsn := "0/1", error := "refused", attempts := 3, firstFailedAt := 0, lastFailedAt := 9
    event :=
      { id := "0/1-0", operation := .insert, schema := "public", table := "orders", oldData := none
        newData := some [("id", some (.int id)), ("note", none)], unchangedToastColumns := []
        metadata := { lsn := "0/1", transactionID := 1, timestamp := 0 } } }

/-- An order with a small id is retried under its own key. -/
theorem retry_renders_small_id :
    ∃ s' back, emptyDeadLetters.park (orderEntry 42) = .ok s' ∧ s'.get "redis-json:0/1-0" = .ok back ∧
      back.event.SameTexts (orderEntry 42).event := by
  obtain ⟨s', hpark⟩ : ∃ s', emptyDeadLetters.park (orderEntry 42) = .ok s' := ⟨_, rfl⟩
  obtain ⟨back, hget, -, hiff⟩ := retry_renders_same_iff hpark
  refine ⟨s', back, hpark, hget, hiff.mpr ?_⟩
  rintro name v (hv | hv)
  · by_cases hid : name = "id"
    · subst hid
      cases hv
      decide
    · by_cases hnote : name = "note"
      · subst hnote
        cases hv
      · simp [orderEntry, Data.get, List.lookup_cons, beq_false_of_ne hid, beq_false_of_ne hnote] at hv
  · cases hv

/-- The order 1000000 is retried under the key `1e+06`. -/
theorem retry_renders_exponent :
    ∃ s' back, emptyDeadLetters.park (orderEntry 1000000) = .ok s' ∧ s'.get "redis-json:0/1-0" = .ok back ∧
      (newKeyTemplateContext "" (orderEntry 1000000).event).field GoValue.sprint "id" = "1000000" ∧
      (newKeyTemplateContext "" back.event).field GoValue.sprint "id" = "1e+06" :=
  ⟨_, _, rfl, rfl, by decide +kernel⟩

end Gtc
