/-
`wal.Decoder`: from the messages of a replication connection to change events,
backfill watermarks and positions that may be confirmed.

The wire formats are parsed by `pglogrepl`; a message here is what it parsed,
and `malformed` what it refused. Column values are decoded by `pgtype`, which
the model takes as a parameter (`TypeMap`).
-/
import Gtc.Wal.Relation

namespace Gtc

variable {V : Type}

/-! ## Messages -/

abbrev Bytes := List UInt8

/-- `pglogrepl.TupleDataColumn`, by its `DataType`. -/
inductive TupleColumn where
  | null
  /-- An unchanged TOAST value, not in the WAL record. -/
  | toast
  | text (data : Bytes)
  | other
deriving DecidableEq, Repr

/-- `pglogrepl.TupleData`; a nil pointer is `none` at the use. -/
abbrev TupleData := List TupleColumn

/-- What `pglogrepl.ParseV2` returns. -/
inductive LogicalMsg where
  | begin (finalLSN : LSN) (commitTime xid : ℕ)
  | commit (transactionEndLSN : LSN)
  | relation (rel : Relation)
  | insert (relationID : ℕ) (tuple : Option TupleData)
  | update (relationID : ℕ) (oldTuple newTuple : Option TupleData)
  | delete (relationID : ℕ) (oldTuple : Option TupleData)
  | truncate (relationIDs : List ℕ)
  /-- `pg_logical_emit_message`. -/
  | message (pfx : String) (content : Bytes) (lsn : LSN)
  /-- A message of a streamed in-progress transaction, by its Go type. -/
  | stream (goType : String)
  /-- `Origin` and `Type`, which the decoder ignores. -/
  | other
deriving DecidableEq, Repr

/-- `pgproto3.BackendMessage`. -/
inductive BackendMessage where
  | errorResponse (message : String)
  | keepalive (serverWALEnd : LSN) (replyRequested : Bool)
  | xLogData (walStart serverWALEnd : LSN) (msg : LogicalMsg)
  /-- `CopyData` whose content does not parse. -/
  | malformed (err : Err)
  /-- `CopyData` with another first byte, and every other message. -/
  | other
deriving DecidableEq, Repr

/-! ## Column values -/

/-- A type of `pgtype.Map`. -/
structure PgType (V : Type) where
  name : String
  decodeValue : Bytes → Except Err (Option V)

/-- `pgtype.Map`, and a Go string as a column value. -/
structure TypeMap (V : Type) where
  typeForOID : ℕ → Option (PgType V)
  string : Bytes → V

def uuidOID : ℕ := 2950

def numericOID : ℕ := 1700

/-- `DecodeText`. -/
def decodeText (tm : TypeMap V) (dataType : ℕ) (data : Bytes) : Except Err (Option V) :=
  if dataType = uuidOID ∨ dataType = numericOID then .ok (some (tm.string data))
  else
    match tm.typeForOID dataType with
    | some dt => dt.decodeValue data
    | none => .ok (some (tm.string data))

def typeName (tm : TypeMap V) (oid : ℕ) : String :=
  match tm.typeForOID oid with
  | some dt => dt.name
  | none => "oid:" ++ toString oid

/-- `values[name] = value`. -/
def Data.set (d : Data V) (name : String) (value : Option V) : Data V :=
  if d.any (·.1 == name) then d.map fun c => if c.1 = name then (name, value) else c else d ++ [(name, value)]

/-- The loop of `decodeTuple` from column `idx` on. A tuple with more columns
than its relation makes the source panic. -/
def decodeColumns (tm : TypeMap V) (rel : Relation) :
    ℕ → TupleData → Data V → List String → Except Err (Data V × List String)
  | _, [], values, unchangedToast => .ok (values, unchangedToast)
  | idx, col :: cols, values, unchangedToast =>
    match rel.columns[idx]? with
    | none => .error (.new "runtime error: index out of range")
    | some c =>
      match col with
      | .null => decodeColumns tm rel (idx + 1) cols (values.set c.name none) unchangedToast
      | .toast => decodeColumns tm rel (idx + 1) cols values (unchangedToast ++ [c.name])
      | .text data =>
        let value := match decodeText tm c.dataType data with
          | .ok value => value
          | .error _ => some (tm.string data)
        decodeColumns tm rel (idx + 1) cols (values.set c.name value) unchangedToast
      | .other => decodeColumns tm rel (idx + 1) cols values unchangedToast

/-- `Decoder.decodeTuple`: the column map (nil for no tuple) and the columns
left out of it. -/
def decodeTuple (tm : TypeMap V) (rel : Relation) :
    Option TupleData → Except Err (Option (Data V) × List String)
  | none => .ok (none, [])
  | some tuple => (decodeColumns tm rel 0 tuple [] []).map fun r => (some r.1, r.2)

/-! ## The decoder -/

structure Decoder where
  relations : ℕ → Option Relation
  txn : TxnState

def newDecoder : Decoder := { relations := fun _ => none, txn := {} }

structure LogicalMessage where
  pfx : String
  content : Bytes
  lsn : LSN
deriving DecidableEq, Repr

structure DecodeResult (V : Type) where
  events : List (CDCEvent V) := []
  schemaChanges : List SchemaChange := []
  message : Option LogicalMessage := none
  /-- A position that is safe to confirm, or 0. -/
  ackLSN : LSN := 0
  serverWALEnd : LSN := 0
  requestReply : Bool := false

def Decoder.relation (d : Decoder) (relationID : ℕ) : Except Err Relation :=
  match d.relations relationID with
  | some rel => .ok rel
  | none => .error (.new ("no relation message received for relation ID " ++ toString relationID))

def Decoder.newEvent (d : Decoder) (lsn : LSN) (operation : Operation) (rel : Relation)
    (oldData newData : Option (Data V)) (unchangedToastColumns : List String) : CDCEvent V where
  id := lsn.string
  operation
  schema := rel.namespace_
  table := rel.relationName
  oldData
  newData
  unchangedToastColumns
  metadata := { lsn := lsn.string, transactionID := d.txn.xid, timestamp := d.txn.commitTime }

/-- The loop over the relations of a TRUNCATE, from index `i` on. -/
def Decoder.truncateEvents (d : Decoder) (lsn : LSN) : ℕ → List ℕ → Except Err (List (CDCEvent V))
  | _, [] => .ok []
  | i, relID :: relIDs => do
    let rel ← d.relation relID
    let event := d.newEvent lsn .truncate rel none none []
    let events ← d.truncateEvents lsn (i + 1) relIDs
    return { event with id := lsn.string ++ "-" ++ toString i } :: events

def Decoder.decodeWALData (tm : TypeMap V) (d : Decoder) (msg : LogicalMsg) (lsn : LSN) :
    Except Err (DecodeResult V × Decoder) :=
  match msg with
  | .begin finalLSN commitTime xid => .ok ({}, { d with txn := { inTxn := true, xid, commitTime, finalLSN } })
  | .commit transactionEndLSN =>
    .ok ({ ackLSN := transactionEndLSN }, { d with txn := { d.txn with inTxn := false } })
  | .relation rel =>
    let schemaChanges := match d.relations rel.relationID with
      | some prev => (diffRelation (typeName tm) d.txn prev rel lsn).toList
      | none => []
    .ok ({ schemaChanges }, { d with relations := Function.update d.relations rel.relationID (some rel) })
  | .insert relationID tuple => do
    let rel ← d.relation relationID
    let new ← decodeTuple tm rel tuple
    return ({ events := [d.newEvent lsn .insert rel none new.1 []] }, d)
  | .update relationID oldTuple newTuple => do
    let rel ← d.relation relationID
    let new ← decodeTuple tm rel newTuple
    let old ← decodeTuple tm rel oldTuple
    return ({ events := [d.newEvent lsn .update rel old.1 new.1 new.2] }, d)
  | .delete relationID oldTuple => do
    let rel ← d.relation relationID
    let old ← decodeTuple tm rel oldTuple
    return ({ events := [d.newEvent lsn .delete rel old.1 none []] }, d)
  | .truncate relationIDs => do
    let events ← d.truncateEvents lsn 0 relationIDs
    return ({ events }, d)
  | .message pfx content msgLSN => .ok ({ message := some { pfx, content, lsn := msgLSN } }, d)
  | .stream goType =>
    .error (.new ("unexpected streamed-transaction message " ++ goType ++ " (streaming is disabled)"))
  | .other => .ok ({}, d)

def Decoder.decode (tm : TypeMap V) (d : Decoder) : BackendMessage → Except Err (DecodeResult V × Decoder)
  | .errorResponse _ => .ok ({}, d)
  | .keepalive serverWALEnd replyRequested =>
    -- Inside a transaction the server's position covers events that are
    -- still to come.
    .ok ({ serverWALEnd, requestReply := replyRequested, ackLSN := if d.txn.inTxn then 0 else serverWALEnd }, d)
  | .xLogData walStart serverWALEnd msg => do
    let (result, d) ← d.decodeWALData tm msg walStart
    return ({ result with serverWALEnd }, d)
  | .malformed err => .error err
  | .other => .ok ({}, d)

end Gtc
