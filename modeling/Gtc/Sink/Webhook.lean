/-
The webhook sink: one signed POST per event, in order, up to the first that is
not accepted.
-/
import Gtc.Sink.Keys

namespace Gtc

variable {V : Type}

/-- `http.Request`, with its body before it is marshalled. -/
structure WebhookRequest (V : Type) where
  url : String
  headers : List (String × String)
  body : CDCEvent V
deriving DecidableEq

/-- What the world does with one delivery: the clock at the signature, and the
client's error or the response's code, status line and body. -/
structure WebhookFate where
  now : String
  response : Except Err (ℕ × String × String)

structure WebhookSink (V : Type) where
  url : String
  authHeader : String
  signingSecret : String
  filter : Option KeyedSinkConfig
  /-- The error of `sonic.Marshal`, for an event it cannot marshal. -/
  marshal : CDCEvent V → Option Err
  /-- The error of `http.NewRequestWithContext`. -/
  newRequest : Option Err
  /-- `Sign`, at the secret, a timestamp and a body. -/
  sign : String → String → CDCEvent V → String

namespace WebhookSink

variable (s : WebhookSink V)

def shouldProcess (schema table : String) : Bool :=
  match s.filter with
  | none => true
  | some filter => filter.shouldProcess schema table

def request (now : String) (event : CDCEvent V) : WebhookRequest V where
  url := s.url
  headers :=
    [("Content-Type", "application/json"), ("User-Agent", "gtc"), ("X-GTC-Event-Id", event.id),
      ("X-GTC-Table", event.fullTableName), ("X-GTC-Operation", event.operation.string)] ++
    (if s.authHeader ≠ "" then [("Authorization", s.authHeader)] else []) ++
    (if s.signingSecret ≠ "" then
      [("X-GTC-Timestamp", now), ("X-GTC-Signature", s.sign s.signingSecret now event)] else [])
  body := event

/-- The error a response stands for; the receiver refused the payload of some. -/
def responseError (event : CDCEvent V) : Except Err (ℕ × String × String) → Option Err
  | .error err => some (.wrap ("post event " ++ event.id ++ ": " ++ err.error) err)
  | .ok (code, status, detail) =>
    if 200 ≤ code ∧ code ≤ 299 then none
    else
      let err := .new ("webhook returned " ++ status ++ " for event " ++ event.id ++ ": " ++ detail)
      some (if code = 400 ∨ code = 413 ∨ code = 422 then .permanent err else err)

/-- `deliver`: its error, and the request when one was sent. -/
def deliver (fate : WebhookFate) (event : CDCEvent V) : Option Err × Option (WebhookRequest V) :=
  match s.marshal event with
  | some err =>
    (some (.permanent (.wrap ("marshal payload for event " ++ event.id ++ ": " ++ err.error) err)), none)
  | none =>
    match s.newRequest with
    | some err => (some (.wrap ("build request: " ++ err.error) err), none)
    | none => (responseError event fate.response, some (s.request fate.now event))

/-- The loop of `Process`, from the `i`-th delivery on: its error, and the requests
sent. -/
def process (fates : ℕ → WebhookFate) : ℕ → List (CDCEvent V) → Option Err × List (WebhookRequest V)
  | _, [] => (none, [])
  | i, event :: events =>
    if !s.shouldProcess event.schema event.table then process fates i events
    else
      match s.deliver (fates i) event with
      | (some err, request) => (some err, request.toList)
      | (none, request) => ((process fates (i + 1) events).1, request.toList ++ (process fates (i + 1) events).2)

end WebhookSink

end Gtc
