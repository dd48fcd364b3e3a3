/-
Key templates: how the Redis sinks, the webhook and NATS choose the tables they
take and name the stream, document or subject of an event.

A parsed `text/template` is a function of the context it is executed in; the
parser is a parameter of the resolver. The template cache returns what parsing
the pattern again would.
-/
import Gtc.Sink.Effects

namespace Gtc

variable {V : Type}

def CDCEvent.fullTableName (event : CDCEvent V) : String := event.schema ++ "." ++ event.table

/-- `data[name]`: `none` when the column is missing, `some none` when it is nil. -/
def Data.get (data : Data V) (name : String) : Option (Option V) := data.lookup name

theorem lookup_filter_fst (q : String → Bool) (data : Data V) (name : String) :
    (data.filter fun c => q c.1).lookup name = if q name then data.lookup name else none := by
  induction data with
  | nil => simp
  | cons c data ih =>
    obtain ⟨col, val⟩ := c
    by_cases hname : name = col
    · subst hname
      by_cases hq : q name
      · simp [hq]
      · simp [hq, ih]
    · by_cases hq : q col
      · simp [hq, List.lookup_cons, beq_false_of_ne hname, ih]
      · simp [hq, List.lookup_cons, beq_false_of_ne hname, ih]

/-! ## Sink configuration -/

/-- `config.KeyedSinkConfig`: the key pattern of each table entry, by the name
written in the configuration. -/
structure KeyedSinkConfig where
  syncAll : Bool
  defaultKeyPattern : String
  tables : List (String × String)

def KeyedSinkConfig.shouldProcess (c : KeyedSinkConfig) (schema table : String) : Bool :=
  if (c.tables.lookup (schema ++ "." ++ table)).isSome then true
  else if (c.tables.lookup table).isSome then true
  else c.syncAll

/-- The first non-empty pattern of the table's entries. -/
def KeyedSinkConfig.getKeyPattern (c : KeyedSinkConfig) (schema table : String) : String :=
  match c.tables.lookup (schema ++ "." ++ table) with
  | some key => if key ≠ "" then key else byTable
  | none => byTable
where
  byTable : String :=
    match c.tables.lookup table with
    | some key => if key ≠ "" then key else c.defaultKeyPattern
    | none => c.defaultKeyPattern

/-! ## Templates -/

structure KeyTemplateContext (V : Type) where
  prefix_ : String
  schema : String
  table : String
  operation : String
  id : String
  newData : Option (Data V)
  oldData : Option (Data V)

def newKeyTemplateContext (prefix_ : String) (event : CDCEvent V) : KeyTemplateContext V where
  prefix_
  schema := event.schema
  table := event.table
  operation := event.operation.string
  id := event.id
  newData := event.newData
  oldData := event.oldData

/-- `fmt.Sprintf("%v", val)` of a column value, nil included. -/
def formatFieldValue (print : V → String) : Option V → String
  | none => "null"
  | some v => print v

/-- The row the event writes has the field, else the row it replaces. -/
def KeyTemplateContext.field (print : V → String) (c : KeyTemplateContext V) (name : String) : String :=
  match c.newData.bind (·.get name) with
  | some val => formatFieldValue print val
  | none =>
    match c.oldData.bind (·.get name) with
    | some val => formatFieldValue print val
    | none => ""

/-- A parsed template, executed. -/
abbrev KeyTemplate (V : Type) := KeyTemplateContext V → Except Err String

def KeyTemplate.execute (kt : KeyTemplate V) (ctx : KeyTemplateContext V) : Except Err String :=
  match kt ctx with
  | .ok key => .ok key
  | .error err => .error (.wrap ("failed to execute key template: " ++ err.error) err)

structure KeyResolver (V : Type) where
  /-- `ParseKeyTemplate`. -/
  parse : String → Except Err (KeyTemplate V)
  config : KeyedSinkConfig
  prefixTemplate : KeyTemplate V
  defaultPattern : String

def KeyResolver.shouldProcess (kr : KeyResolver V) (schema table : String) : Bool :=
  kr.config.shouldProcess schema table

def KeyResolver.generateKey (kr : KeyResolver V) (event : CDCEvent V) : Except Err String :=
  match KeyTemplate.execute kr.prefixTemplate (newKeyTemplateContext "" event) with
  | .error err => .error (.wrap ("failed to resolve prefix: " ++ err.error) err)
  | .ok prefix_ =>
    let pattern := kr.config.getKeyPattern event.schema event.table
    match kr.parse (if pattern = "" then kr.defaultPattern else pattern) with
    | .error err =>
      .error (.wrap ("invalid pattern for " ++ event.schema ++ "." ++ event.table ++ ": " ++ err.error) err)
    | .ok tmpl => KeyTemplate.execute tmpl (newKeyTemplateContext prefix_ event)

end Gtc
