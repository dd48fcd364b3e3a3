/-
The outbox sink: INSERTs into the outbox table become messages on the stream of
their topic.
-/
import Gtc.Sink.Keys

namespace Gtc

variable {V : Type}

structure OutboxColumns where
  id : String := "id"
  topic : String := "topic"
  key : String := "aggregate_id"
  payload : String := "payload"
  eventType : String := "event_type"

/-- An XADD: the stream, and the message's fields. -/
structure OutboxMessage where
  stream : String
  id : String
  payload : String
  type : Option String
  key : Option String
deriving DecidableEq, Repr

structure OutboxSink (V : Type) where
  schema : String
  table : String
  streamPrefix : String
  defaultTopic : String
  columns : OutboxColumns
  /-- `fmt.Sprintf("%v", v)`. -/
  print : V → String
  /-- Text as it is, anything else marshalled. -/
  payloadString : V → Except Err String

namespace OutboxSink

variable (s : OutboxSink V)

/-- `row[col]`, printed; empty when it is missing or nil. -/
def stringValue (row : Data V) (col : String) : String := ((row.get col).join.map s.print).getD ""

def buildMessage (event : CDCEvent V) : Except Err OutboxMessage :=
  let row := event.newData.getD []
  let topic := if s.stringValue row s.columns.topic = "" then s.defaultTopic else s.stringValue row s.columns.topic
  if topic = "" then
    .error (.new ("outbox row has no " ++ goQuote s.columns.topic ++
      " value and no default_topic is configured (event " ++ event.id ++ ")"))
  else
    match (row.get s.columns.payload).join with
    | none => .error (.new ("outbox row has no " ++ goQuote s.columns.payload ++ " value (event " ++ event.id ++ ")"))
    | some payload =>
      match s.payloadString payload with
      | .error err =>
        .error (.wrap ("outbox: serialize payload (event " ++ event.id ++ "): " ++ err.error) err)
      | .ok payload =>
        let optional (col : String) : Option String :=
          if s.stringValue row col = "" then none else some (s.stringValue row col)
        .ok { stream := s.streamPrefix ++ ":" ++ topic
              id := if s.stringValue row s.columns.id = "" then event.id else s.stringValue row s.columns.id
              payload
              type := optional s.columns.eventType
              key := optional s.columns.key }

/-- The events that are messages. -/
def isMessage (event : CDCEvent V) : Bool :=
  event.schema = s.schema && event.table = s.table && event.operation = .insert

/-- The loop of `Process`. -/
def messages : List (CDCEvent V) → Except Err (List OutboxMessage)
  | [] => .ok []
  | event :: events =>
    if !s.isMessage event then messages events
    else
      match s.buildMessage event with
      | .error err => .error (.permanent err)
      | .ok msg => (messages events).map (msg :: ·)

end OutboxSink

end Gtc
