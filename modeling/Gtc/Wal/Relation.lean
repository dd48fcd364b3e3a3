/-
Relation descriptions and the schema changes the decoder reads off them.

PostgreSQL sends no DDL. It sends a table's description again before the next
row change when its shape changed, and `diffRelation` reports what is
different from the description before.
-/
import Gtc.Domain

namespace Gtc

/-- `pglogrepl.RelationMessageColumn`. -/
structure RelationColumn where
  flags : ℕ
  name : String
  dataType : ℕ
deriving DecidableEq, Repr

/-- `pglogrepl.RelationMessageV2`. -/
structure Relation where
  relationID : ℕ
  namespace_ : String
  relationName : String
  replicaIdentity : Char
  columns : List RelationColumn
deriving DecidableEq, Repr

/-- `Flags&1 == 1`: the column is part of the replica identity. -/
def RelationColumn.isKey (col : RelationColumn) : Bool := col.flags % 2 = 1

def Relation.keyColumns (rel : Relation) : List String := (rel.columns.filter (·.isKey)).map (·.name)

/-- The column a map from names to the relation's columns holds for `name`: a
later column of the same name replaces an earlier one. -/
def Relation.column (rel : Relation) (name : String) : Option RelationColumn :=
  rel.columns.reverse.find? (·.name = name)

/-! ## Schema changes -/

inductive SchemaChangeKind where
  | columnAdded
  | columnDropped
  | columnTypeChanged
  | keyChanged
  | replicaIdentity
  | tableRenamed
deriving DecidableEq, Repr

structure ColumnDef where
  name : String
  type : String
  typeOID : ℕ
  partOfKey : Bool
deriving DecidableEq, Repr

structure ColumnTypeChange where
  name : String
  from_ : ColumnDef
  to_ : ColumnDef
deriving DecidableEq, Repr

structure SchemaChange where
  schema : String
  table : String
  relationID : ℕ
  previousSchema : String := ""
  previousTable : String := ""
  addedColumns : List ColumnDef := []
  droppedColumns : List ColumnDef := []
  changedColumns : List ColumnTypeChange := []
  keyColumns : List String
  previousKeyColumns : List String
  replicaIdentity : String
  previousReplicaIdentity : String := ""
  kinds : List SchemaChangeKind := []
  lsn : String
  transactionID : ℕ
  timestamp : ℕ
deriving DecidableEq, Repr

/-- What `Begin` said about the transaction being decoded. -/
structure TxnState where
  inTxn : Bool := false
  xid : ℕ := 0
  commitTime : ℕ := 0
  finalLSN : LSN := 0
deriving DecidableEq, Repr

def columnDef (typeName : ℕ → String) (col : RelationColumn) : ColumnDef :=
  { name := col.name, type := typeName col.dataType, typeOID := col.dataType, partOfKey := col.isKey }

/-- The columns of `cur` that `prev` does not have. -/
def addedColumns (typeName : ℕ → String) (prev cur : Relation) : List ColumnDef :=
  (cur.columns.filter fun col => (prev.column col.name).isNone).map (columnDef typeName)

/-- The columns of both whose type is different. -/
def changedColumns (typeName : ℕ → String) (prev cur : Relation) : List ColumnTypeChange :=
  cur.columns.filterMap fun col =>
    match prev.column col.name with
    | none => none
    | some before =>
      if before.dataType = col.dataType then none
      else some { name := col.name, from_ := columnDef typeName before, to_ := columnDef typeName col }

/-- The columns of `prev` that `cur` does not have. -/
def droppedColumns (typeName : ℕ → String) (prev cur : Relation) : List ColumnDef :=
  (prev.columns.filter fun col => (cur.column col.name).isNone).map (columnDef typeName)

/-- `Decoder.diffRelation`: nil when nothing it looks at is different. -/
def diffRelation (typeName : ℕ → String) (txn : TxnState) (prev cur : Relation) (lsn : LSN) : Option SchemaChange :=
  let renamed := prev.namespace_ ≠ cur.namespace_ ∨ prev.relationName ≠ cur.relationName
  let added := addedColumns typeName prev cur
  let changed := changedColumns typeName prev cur
  let dropped := droppedColumns typeName prev cur
  let kinds : List SchemaChangeKind :=
    (if renamed then [.tableRenamed] else []) ++
    (if added ≠ [] then [.columnAdded] else []) ++
    (if dropped ≠ [] then [.columnDropped] else []) ++
    (if changed ≠ [] then [.columnTypeChanged] else []) ++
    (if prev.replicaIdentity ≠ cur.replicaIdentity then [.replicaIdentity]
     else if prev.keyColumns ≠ cur.keyColumns then [.keyChanged] else [])
  if kinds = [] then none
  else some
    { schema := cur.namespace_
      table := cur.relationName
      relationID := cur.relationID
      previousSchema := if renamed then prev.namespace_ else ""
      previousTable := if renamed then prev.relationName else ""
      addedColumns := added
      droppedColumns := dropped
      changedColumns := changed
      keyColumns := cur.keyColumns
      previousKeyColumns := prev.keyColumns
      replicaIdentity := cur.replicaIdentity.toString
      previousReplicaIdentity :=
        if prev.replicaIdentity ≠ cur.replicaIdentity then prev.replicaIdentity.toString else ""
      kinds
      -- A description comes without a position of its own; the transaction's
      -- commit position orders it against the row events.
      lsn := LSN.string (if lsn = 0 then txn.finalLSN else lsn)
      transactionID := txn.xid
      timestamp := txn.commitTime }

end Gtc
