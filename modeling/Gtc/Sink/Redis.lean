/-
The Redis sinks: the commands a batch is sent as, one pipeline of XADDs for the
stream sink and of JSON.SET, JSON.MERGE and DEL for the document sink.

What Redis does with a document command is `JSONCommand.apply`: SET replaces
the document, MERGE applies an RFC 7386 patch and creates a document that is
not there, DEL removes it. How a patch merges two values of one field is a
parameter.
-/
import Gtc.Lib.Documents
import Gtc.Sink.Keys

namespace Gtc

open Lib

variable {V : Type}

/-- `redis.BaseSink`. -/
structure RedisBase (V : Type) where
  resolver : KeyResolver V

namespace RedisBase

variable (s : RedisBase V)

def shouldProcess (event : CDCEvent V) : Bool := s.resolver.shouldProcess event.schema event.table

def generateKey (event : CDCEvent V) : Except Err String :=
  match s.resolver.generateKey event with
  | .error err => .error (.wrap ("generate key: " ++ err.error) err)
  | .ok key => .ok key

end RedisBase

/-! ## The stream sink -/

structure XAdd (V : Type) where
  stream : String
  maxLen : Int
  /-- `event_id` and the event the payload carries. -/
  event : CDCEvent V

structure StreamSink (V : Type) extends RedisBase V where
  maxStreamLen : Int
  /-- The error of `sonic.Marshal`, for an event it cannot marshal. -/
  marshal : CDCEvent V → Option Err

/-- The loop of `StreamSink.Process`. -/
def StreamSink.commands (s : StreamSink V) : List (CDCEvent V) → Except Err (List (XAdd V))
  | [] => .ok []
  | event :: events =>
    if !s.shouldProcess event then s.commands events
    else
      match s.generateKey event with
      | .error err => .error (.permanent err)
      | .ok stream =>
        match s.marshal event with
        | some err => .error (.permanent (.wrap ("marshal payload for event " ++ event.id ++ ": " ++ err.error) err))
        | none => (s.commands events).map ({ stream, maxLen := s.maxStreamLen, event } :: ·)

/-! ## The document sink -/

inductive JSONCommand (V : Type) where
  | set (key : String) (doc : Data V)
  | merge (key : String) (doc : Data V)
  | del (key : String)
deriving DecidableEq

structure JSONSink (V : Type) extends RedisBase V where
  /-- The error of `sonic.Marshal`, for a row it cannot marshal. -/
  marshal : Data V → Option Err

/-- What one iteration of `JSONSink.Process` queues. A row whose unchanged TOAST
columns were left out is merged into the document. -/
def JSONSink.command (s : JSONSink V) (event : CDCEvent V) : Except Err (Option (JSONCommand V)) :=
  if !s.shouldProcess event then .ok none
  else
    match event.operation with
    | .insert | .update | .read =>
      match event.newData with
      | none => .ok none
      | some data =>
        match s.generateKey event with
        | .error err => .error (.permanent err)
        | .ok key =>
          match s.marshal data with
          | some err => .error (.permanent (.wrap ("marshal data for event " ++ event.id ++ ": " ++ err.error) err))
          | none =>
            .ok (some (if event.operation = .update ∧ event.unchangedToastColumns ≠ [] then .merge key data
              else .set key data))
    | .delete =>
      match s.generateKey event with
      | .error err => .error (.permanent err)
      | .ok key => .ok (some (.del key))
    | .truncate => .ok none

def JSONSink.commands (s : JSONSink V) : List (CDCEvent V) → Except Err (List (JSONCommand V))
  | [] => .ok []
  | event :: events =>
    match s.command event with
    | .error err => .error err
    | .ok command => (s.commands events).map (command.toList ++ ·)

/-- The documents by key. -/
abbrev JSONDocuments (V : Type) := Documents String String (Option V)

/-- RFC 7386: a null in the patch removes the field. -/
def mergePatch (mergeValue : Option V → V → V) (doc patch : Document String (Option V)) : Document String (Option V) :=
  fun name =>
    match patch name with
    | none => doc name
    | some none => none
    | some (some v) => some (some (mergeValue (doc name).join v))

def JSONCommand.apply (mergeValue : Option V → V → V) (docs : JSONDocuments V) : JSONCommand V → JSONDocuments V
  | .set key data => Function.update docs key (some data.get)
  | .merge key data => Function.update docs key (some (mergePatch mergeValue ((docs key).getD fun _ => none) data.get))
  | .del key => Function.update docs key none

/-- `JSONSink.Process` when Redis executes the pipeline. -/
def JSONSink.process (s : JSONSink V) (mergeValue : Option V → V → V) (events : List (CDCEvent V))
    (docs : JSONDocuments V) : Except Err (JSONDocuments V) :=
  (s.commands events).map fun commands => commands.foldl (JSONCommand.apply mergeValue) docs

end Gtc
