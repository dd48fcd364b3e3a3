/-
The schema changes of a relation, replayed.

A consumer that knows a relation's first description and applies the schema
changes emitted since has the relation's present schema, table name, replica
identity, key columns and column types (`schema_changes_reconstruct`). For two
descriptions this is a diff that its patch undoes (`apply_diffRelation`), and
the diff is empty exactly when they agree (`diffRelation_eq_none_iff`); over a
stream it follows description by description, whatever comes between.
-/
import Gtc.Lib.Changelog
import Gtc.Lib.Program
import Gtc.Wal.Decoder
import Mathlib.Data.List.Nodup

namespace Gtc

open Lib

variable {V : Type}

/-! ## What a consumer knows of a relation -/

@[ext]
structure TableView where
  schema : String
  table : String
  replicaIdentity : String
  keyColumns : List String
  /-- The type OID of each column, by name. -/
  columns : String → Option ℕ

def Relation.view (rel : Relation) : TableView where
  schema := rel.namespace_
  table := rel.relationName
  replicaIdentity := rel.replicaIdentity.toString
  keyColumns := rel.keyColumns
  columns name := (rel.column name).map (·.dataType)

/-- The view after a schema change: the table renamed, its dropped columns
removed, the changed ones retyped, the added ones added, and the key columns
and replica identity set. -/
def TableView.apply (view : TableView) (change : SchemaChange) : TableView where
  schema := if .tableRenamed ∈ change.kinds then change.schema else view.schema
  table := if .tableRenamed ∈ change.kinds then change.table else view.table
  replicaIdentity := change.replicaIdentity
  keyColumns := change.keyColumns
  columns :=
    let kept := Lib.assignAll ColumnDef.name (fun _ => none) view.columns change.droppedColumns
    let retyped := Lib.assignAll ColumnTypeChange.name (fun c => some c.to_.typeOID) kept change.changedColumns
    Lib.assignAll ColumnDef.name (fun c => some c.typeOID) retyped change.addedColumns

/-- No two columns of the description have one name. -/
def Relation.DistinctColumns (rel : Relation) : Prop := (rel.columns.map (·.name)).Nodup

instance (rel : Relation) : Decidable rel.DistinctColumns := inferInstanceAs (Decidable (List.Nodup _))

/-! ## Columns by name -/

theorem Relation.column_eq_some {rel : Relation} (hrel : rel.DistinctColumns) {name : String} {col : RelationColumn} :
    rel.column name = some col ↔ col ∈ rel.columns ∧ col.name = name := by
  constructor
  · intro h
    have hname := List.find?_some h
    exact ⟨List.mem_reverse.mp (List.mem_of_find?_eq_some h), by simpa using hname⟩
  · rintro ⟨hcol, rfl⟩
    cases hfind : rel.column col.name with
    | none => exact absurd (List.find?_eq_none.mp hfind col (by simpa using hcol)) (by simp)
    | some found =>
      have hfound := List.mem_reverse.mp (List.mem_of_find?_eq_some hfind)
      have hname := List.find?_some hfind
      rw [List.inj_on_of_nodup_map hrel hfound hcol (by simpa using hname)]

theorem Relation.column_eq_none {rel : Relation} {name : String} :
    rel.column name = none ↔ ∀ col ∈ rel.columns, col.name ≠ name := by
  simp [Relation.column, List.find?_eq_none]

/-! ## The columns a diff reports -/

section Diff

variable {typeName : ℕ → String} {prev cur : Relation}

theorem mem_addedColumns {c : ColumnDef} : c ∈ addedColumns typeName prev cur ↔
    ∃ col ∈ cur.columns, prev.column col.name = none ∧ columnDef typeName col = c := by
  simp [addedColumns, and_assoc]

theorem mem_droppedColumns {c : ColumnDef} : c ∈ droppedColumns typeName prev cur ↔
    ∃ col ∈ prev.columns, cur.column col.name = none ∧ columnDef typeName col = c := by
  simp [droppedColumns, and_assoc]

theorem mem_changedColumns {c : ColumnTypeChange} : c ∈ changedColumns typeName prev cur ↔
    ∃ col ∈ cur.columns, ∃ before, prev.column col.name = some before ∧ before.dataType ≠ col.dataType ∧
      c = { name := col.name, from_ := columnDef typeName before, to_ := columnDef typeName col } := by
  simp only [changedColumns, List.mem_filterMap]
  refine exists_congr fun col => and_congr_right fun _ => ?_
  cases prev.column col.name with
  | none => simp
  | some before =>
    by_cases htype : before.dataType = col.dataType
    · simp [htype]
    · simp [htype, @eq_comm _ c]

/-- Removing, retyping and adding what the diff says turns the columns of `prev`
into those of `cur`. -/
theorem diff_columns (typeName : ℕ → String) (prev : Relation) (hcur : cur.DistinctColumns) (name : String) :
    Lib.assignAll ColumnDef.name (fun c => some c.typeOID)
      (Lib.assignAll ColumnTypeChange.name (fun c => some c.to_.typeOID)
        (Lib.assignAll ColumnDef.name (fun _ => none) prev.view.columns (droppedColumns typeName prev cur))
        (changedColumns typeName prev cur))
      (addedColumns typeName prev cur) name = cur.view.columns name := by
  cases hnow : cur.column name with
  | none =>
    have hgone := Relation.column_eq_none.mp hnow
    -- Only the removal can write at `name`: the other two write at columns of `cur`.
    rw [Lib.assignAll_of_notMem, Lib.assignAll_of_notMem]
    · by_cases hbefore : prev.column name = none
      · rw [Lib.assignAll_of_notMem]
        · simp [Relation.view, hbefore, hnow]
        · rintro c hc rfl
          obtain ⟨col, hcol, -, rfl⟩ := mem_droppedColumns.mp hc
          exact Relation.column_eq_none.mp hbefore col hcol rfl
      · obtain ⟨before, hbefore⟩ := Option.ne_none_iff_exists'.mp hbefore
        have hmem := List.mem_reverse.mp (List.mem_of_find?_eq_some hbefore)
        have hname : before.name = name := by simpa using List.find?_some hbefore
        rw [Lib.assignAll_of_mem (v := none)]
        · simp [Relation.view, hnow]
        · exact ⟨columnDef typeName before, mem_droppedColumns.mpr ⟨before, hmem, by rw [hname, hnow], rfl⟩, hname⟩
        · exact fun _ _ _ => rfl
    · rintro c hc rfl
      obtain ⟨col, hcol, before, -, -, rfl⟩ := mem_changedColumns.mp hc
      exact hgone col hcol rfl
    · rintro c hc rfl
      obtain ⟨col, hcol, -, rfl⟩ := mem_addedColumns.mp hc
      exact hgone col hcol rfl
  | some now =>
    obtain ⟨hmem, rfl⟩ := (Relation.column_eq_some hcur).mp hnow
    have hview : cur.view.columns now.name = some now.dataType := by simp [Relation.view, hnow]
    have honly : ∀ col ∈ cur.columns, col.name = now.name → col = now := fun col hcol hname =>
      List.inj_on_of_nodup_map hcur hcol hmem hname
    rw [hview]
    cases hbefore : prev.column now.name with
    | none =>
      refine Lib.assignAll_of_mem ⟨columnDef typeName now, mem_addedColumns.mpr ⟨now, hmem, hbefore, rfl⟩, rfl⟩ ?_ _
      intro c hc hname
      obtain ⟨col, hcol, -, rfl⟩ := mem_addedColumns.mp hc
      rw [honly col hcol hname]
      rfl
    | some before =>
      rw [Lib.assignAll_of_notMem]
      · by_cases htype : before.dataType = now.dataType
        · rw [Lib.assignAll_of_notMem, Lib.assignAll_of_notMem]
          · simp [Relation.view, hbefore, htype]
          · intro c hc hname
            obtain ⟨col, -, hgone, rfl⟩ := mem_droppedColumns.mp hc
            rw [show col.name = now.name from hname, hnow] at hgone
            cases hgone
          · intro c hc hname
            obtain ⟨col, hcol, was, hwas, hne, rfl⟩ := mem_changedColumns.mp hc
            cases honly col hcol hname
            rw [hbefore] at hwas
            cases hwas
            exact hne htype
        · refine Lib.assignAll_of_mem ⟨_, mem_changedColumns.mpr ⟨now, hmem, before, hbefore, htype, rfl⟩, rfl⟩ ?_ _
          intro c hc hname
          obtain ⟨col, hcol, was, -, -, rfl⟩ := mem_changedColumns.mp hc
          rw [honly col hcol hname]
          rfl
      · intro c hc hname
        obtain ⟨col, -, hnew, rfl⟩ := mem_addedColumns.mp hc
        rw [show col.name = now.name from hname, hbefore] at hnew
        cases hnew

variable {txn : TxnState} {lsn : LSN}

/-- A renamed table, a changed column list, replica identity or key is reported. -/
theorem diffRelation_eq_none : diffRelation typeName txn prev cur lsn = none ↔
    (prev.namespace_ = cur.namespace_ ∧ prev.relationName = cur.relationName) ∧
      addedColumns typeName prev cur = [] ∧ droppedColumns typeName prev cur = [] ∧
      changedColumns typeName prev cur = [] ∧
      prev.replicaIdentity = cur.replicaIdentity ∧ prev.keyColumns = cur.keyColumns := by
  simp only [diffRelation, ite_eq_left_iff, reduceCtorEq, imp_false, not_not, List.append_eq_nil_iff]
  by_cases hreplica : prev.replicaIdentity = cur.replicaIdentity
  · simp [hreplica, not_or, and_assoc]
  · simp [hreplica]

theorem charString_inj {a b : Char} (h : a.toString = b.toString) : a = b := by
  simpa using congrArg String.toList h

/-- **No change is no difference**: the diff of two descriptions is empty exactly
when a consumer sees the same of both. -/
theorem diffRelation_eq_none_iff (hcur : cur.DistinctColumns) :
    diffRelation typeName txn prev cur lsn = none ↔ prev.view = cur.view := by
  rw [diffRelation_eq_none]
  constructor
  · rintro ⟨⟨hschema, htable⟩, hadded, hdropped, hchanged, hreplica, hkeys⟩
    ext1
    · exact hschema
    · exact htable
    · exact congrArg Char.toString hreplica
    · exact hkeys
    · funext name
      have hcolumns := diff_columns typeName prev hcur name
      rwa [hadded, hdropped, hchanged] at hcolumns
  · intro h
    have hcolumn (name : String) :
        (prev.column name).map (·.dataType) = (cur.column name).map (·.dataType) :=
      congrFun (congrArg TableView.columns h) name
    refine ⟨⟨congrArg TableView.schema h, congrArg TableView.table h⟩, ?_, ?_, ?_,
      charString_inj (congrArg TableView.replicaIdentity h), congrArg TableView.keyColumns h⟩
    · refine List.eq_nil_iff_forall_not_mem.mpr fun c hc => ?_
      obtain ⟨col, hcol, hnew, -⟩ := mem_addedColumns.mp hc
      have hgone : cur.column col.name = none := by simpa [hnew] using (hcolumn col.name).symm
      exact Relation.column_eq_none.mp hgone col hcol rfl
    · refine List.eq_nil_iff_forall_not_mem.mpr fun c hc => ?_
      obtain ⟨col, hcol, hgone, -⟩ := mem_droppedColumns.mp hc
      have hnew : prev.column col.name = none := by simpa [hgone] using hcolumn col.name
      exact Relation.column_eq_none.mp hnew col hcol rfl
    · refine List.eq_nil_iff_forall_not_mem.mpr fun c hc => ?_
      obtain ⟨col, hcol, before, hbefore, htype, -⟩ := mem_changedColumns.mp hc
      have hnow := (Relation.column_eq_some hcur).mpr ⟨hcol, rfl⟩
      exact htype (by simpa [hbefore, hnow] using hcolumn col.name)

/-- A schema change carries the new description, and says that the table was
renamed only when it was. -/
theorem diffRelation_eq_some {change : SchemaChange} (h : diffRelation typeName txn prev cur lsn = some change) :
    (change.schema = cur.namespace_ ∧ change.table = cur.relationName ∧
      change.replicaIdentity = cur.replicaIdentity.toString ∧ change.keyColumns = cur.keyColumns) ∧
    (change.addedColumns = addedColumns typeName prev cur ∧ change.droppedColumns = droppedColumns typeName prev cur ∧
      change.changedColumns = changedColumns typeName prev cur) ∧
    (.tableRenamed ∉ change.kinds → prev.namespace_ = cur.namespace_ ∧ prev.relationName = cur.relationName) := by
  simp only [diffRelation, Option.ite_none_left_eq_some, Option.some.injEq] at h
  obtain ⟨-, rfl⟩ := h
  refine ⟨⟨rfl, rfl, rfl, rfl⟩, ⟨rfl, rfl, rfl⟩, fun hkinds => ?_⟩
  by_contra hsame
  have hrenamed : prev.namespace_ ≠ cur.namespace_ ∨ prev.relationName ≠ cur.relationName := by tauto
  exact hkinds (by simp [hrenamed])

/-- **A diff is undone by its patch**: applied to what the consumer knew, a schema
change gives what the new description says. -/
theorem apply_diffRelation (hcur : cur.DistinctColumns) {change : SchemaChange}
    (h : diffRelation typeName txn prev cur lsn = some change) : prev.view.apply change = cur.view := by
  obtain ⟨⟨hschema, htable, hreplica, hkeys⟩, ⟨hadded, hdropped, hchanged⟩, hkinds⟩ := diffRelation_eq_some h
  ext1
  · by_cases hrenamed : .tableRenamed ∈ change.kinds
    · simp [TableView.apply, hrenamed, hschema, Relation.view]
    · simp [TableView.apply, hrenamed, (hkinds hrenamed).1, Relation.view]
  · by_cases hrenamed : .tableRenamed ∈ change.kinds
    · simp [TableView.apply, hrenamed, htable, Relation.view]
    · simp [TableView.apply, hrenamed, (hkinds hrenamed).2, Relation.view]
  · exact hreplica
  · exact hkeys
  · funext name
    simp only [TableView.apply, hadded, hdropped, hchanged]
    exact diff_columns typeName prev hcur name

end Diff

/-! ## A relation over a stream -/

/-- The description a message gives of relation `id`. -/
def describes (id : ℕ) : BackendMessage → Option Relation
  | .xLogData _ _ (.relation rel) => if rel.relationID = id then some rel else none
  | _ => none

/-- The descriptions of relation `id` that the decoder reads, each with the schema
changes emitted for it. The reader keeps its decoder when it reconnects after
a message that does not decode. -/
def descriptions (tm : TypeMap V) (id : ℕ) : Decoder → List BackendMessage → List (Relation × List SchemaChange)
  | _, [] => []
  | d, m :: ms =>
    match d.decode tm m with
    | .error _ => descriptions tm id d ms
    | .ok (result, d') => ((describes id m).map (·, result.schemaChanges)).toList ++ descriptions tm id d' ms

variable {tm : TypeMap V} {read : List (Relation × List SchemaChange)} {cur : Relation × List SchemaChange}

/-- A message leaves relation `id` as it was, or describes it: then its schema
changes are the diff with the description before. -/
theorem decode_describes {d d' : Decoder} {m : BackendMessage} {result : DecodeResult V}
    (h : d.decode tm m = .ok (result, d')) (id : ℕ) :
    (describes id m = none ∧ d'.relations id = d.relations id) ∨
      ∃ rel lsn, describes id m = some rel ∧ d'.relations id = some rel ∧
        result.schemaChanges = match d.relations id with
          | some prev => (diffRelation (typeName tm) d.txn prev rel lsn).toList
          | none => [] := by
  cases m with
  | errorResponse | keepalive | other => cases h; exact .inl ⟨rfl, rfl⟩
  | malformed err => cases h
  | xLogData walStart serverWALEnd msg =>
    simp only [Decoder.decode, bind_eq_ok] at h
    obtain ⟨r, hr, h⟩ := h
    cases h
    cases msg with
    | begin | commit | message | other => cases hr; exact .inl ⟨rfl, rfl⟩
    | stream goType => cases hr
    | insert relationID tuple =>
      simp only [Decoder.decodeWALData, bind_eq_ok] at hr
      obtain ⟨rel, -, new, -, hr⟩ := hr
      cases hr; exact .inl ⟨rfl, rfl⟩
    | update relationID oldTuple newTuple =>
      simp only [Decoder.decodeWALData, bind_eq_ok] at hr
      obtain ⟨rel, -, new, -, old, -, hr⟩ := hr
      cases hr; exact .inl ⟨rfl, rfl⟩
    | delete relationID oldTuple =>
      simp only [Decoder.decodeWALData, bind_eq_ok] at hr
      obtain ⟨rel, -, old, -, hr⟩ := hr
      cases hr; exact .inl ⟨rfl, rfl⟩
    | truncate relIDs =>
      simp only [Decoder.decodeWALData, bind_eq_ok] at hr
      obtain ⟨events, -, hr⟩ := hr
      cases hr; exact .inl ⟨rfl, rfl⟩
    | relation rel =>
      cases hr
      by_cases hid : rel.relationID = id
      · subst hid
        exact .inr ⟨rel, walStart, by simp [describes], by simp, rfl⟩
      · exact .inl ⟨by simp [describes, hid], Function.update_of_ne (Ne.symm hid) _ _⟩

/-- Every description of a list comes with the diff from the one before it. -/
def Diffs (tm : TypeMap V) : Option Relation → List (Relation × List SchemaChange) → Prop
  | _, [] => True
  | none, (rel, changes) :: rest => rel.DistinctColumns ∧ changes = [] ∧ Diffs tm (some rel) rest
  | some prev, (rel, changes) :: rest =>
    rel.DistinctColumns ∧ (∃ txn lsn, changes = (diffRelation (typeName tm) txn prev rel lsn).toList) ∧
      Diffs tm (some rel) rest

theorem descriptions_diffs (tm : TypeMap V) (id : ℕ) {ms : List BackendMessage}
    (hms : ∀ m ∈ ms, ∀ rel ∈ describes id m, rel.DistinctColumns) (d : Decoder) :
    Diffs tm (d.relations id) (descriptions tm id d ms) := by
  induction ms generalizing d with
  | nil => cases d.relations id <;> trivial
  | cons m ms ih =>
    have hrest := ih fun m' hm' => hms m' (by simp [hm'])
    unfold descriptions
    cases hdecode : d.decode tm m with
    | error err => exact hrest d
    | ok r =>
      obtain ⟨result, d'⟩ := r
      rcases decode_describes hdecode id with ⟨hother, hkept⟩ | ⟨rel, lsn, hrel, hnow, hchanges⟩
      · simp only [hother, Option.map_none, Option.toList_none, List.nil_append, ← hkept]
        exact hrest d'
      · simp only [hrel, Option.map_some, Option.toList_some, List.singleton_append]
        have hdistinct := hms m (by simp) rel hrel
        have htail := hrest d'
        rw [hnow] at htail
        cases hprev : d.relations id with
        | none => exact ⟨hdistinct, by rw [hchanges, hprev], htail⟩
        | some prev => exact ⟨hdistinct, ⟨d.txn, lsn, by rw [hchanges, hprev]⟩, htail⟩

/-! ## Reconstruction -/

/-- The view after all schema changes of some descriptions. -/
def replayChanges (view : TableView) (read : List (Relation × List SchemaChange)) : TableView :=
  (read.flatMap (·.2)).foldl TableView.apply view

theorem Diffs.reconstruct {prev : Relation} (h : Diffs tm (some prev) read) {n : ℕ} (hcur : read[n]? = some cur) :
    replayChanges prev.view (read.take (n + 1)) = cur.1.view := by
  induction read generalizing prev n with
  | nil => simp at hcur
  | cons r read ih =>
    obtain ⟨rel, changes⟩ := r
    obtain ⟨hdistinct, ⟨txn, lsn, hchanges⟩, hrest⟩ := h
    have hstep : changes.foldl TableView.apply prev.view = rel.view := by
      cases hdiff : diffRelation (typeName tm) txn prev rel lsn with
      | none =>
        rw [hchanges, hdiff]
        exact (diffRelation_eq_none_iff hdistinct).mp hdiff
      | some change =>
        rw [hchanges, hdiff]
        exact apply_diffRelation hdistinct hdiff
    cases n with
    | zero =>
      cases hcur
      simpa [replayChanges] using hstep
    | succ n =>
      have htail := ih hrest hcur
      simpa [replayChanges, List.foldl_append, hstep] using htail

theorem Diffs.reconstruct_first (h : Diffs tm none read)
    {first : Relation × List SchemaChange} (hfirst : read[0]? = some first) {n : ℕ} (hcur : read[n]? = some cur) :
    replayChanges first.1.view (read.take (n + 1)) = cur.1.view := by
  cases read with
  | nil => simp at hfirst
  | cons r read =>
    cases hfirst
    obtain ⟨-, hsilent, hrest⟩ := h
    cases n with
    | zero =>
      cases hcur
      simp [replayChanges, hsilent]
    | succ n =>
      have htail := hrest.reconstruct hcur
      simpa [replayChanges, hsilent] using htail

theorem Diffs.silent_iff {start : Option Relation}
    (h : Diffs tm start read) {n : ℕ} {prev : Relation × List SchemaChange} (hprev : read[n]? = some prev)
    (hcur : read[n + 1]? = some cur) : cur.2 = [] ↔ prev.1.view = cur.1.view := by
  induction read generalizing start n with
  | nil => simp at hcur
  | cons r read ih =>
    have hrest : Diffs tm (some r.1) read := by
      cases start with
      | none => exact h.2.2
      | some before => exact h.2.2
    cases n with
    | succ n => exact ih hrest hprev hcur
    | zero =>
      cases hprev
      cases read with
      | nil => simp at hcur
      | cons c read =>
        cases hcur
        obtain ⟨hdistinct, ⟨txn, lsn, hchanges⟩, -⟩ := hrest
        rw [hchanges, Option.toList_eq_nil_iff]
        exact diffRelation_eq_none_iff hdistinct

/-- **Schema changes reconstruct the relation.** Whatever stream a new decoder
reads, for every relation whose descriptions have distinct column names: the
schema changes emitted up to any of its descriptions, applied in order to the
first description, give what that description says, and a description after
the first comes without a schema change exactly when it says what the one
before it said. -/
theorem schema_changes_reconstruct (tm : TypeMap V) (id : ℕ) (ms : List BackendMessage)
    (hms : ∀ m ∈ ms, ∀ rel ∈ describes id m, rel.DistinctColumns) :
    let read := descriptions tm id newDecoder ms
    (∀ first ∈ read[0]?, ∀ n, ∀ cur ∈ read[n]?, replayChanges first.1.view (read.take (n + 1)) = cur.1.view) ∧
      ∀ n, ∀ prev ∈ read[n]?, ∀ cur ∈ read[n + 1]?, (cur.2 = [] ↔ prev.1.view = cur.1.view) := by
  intro read
  have hread : Diffs tm none read := descriptions_diffs tm id hms newDecoder
  exact ⟨fun first hfirst n cur hcur => hread.reconstruct_first hfirst hcur,
    fun n prev hprev cur hcur => hread.silent_iff hprev hcur⟩

/-- A table is created, then renamed in one go with a column added, one dropped,
one retyped and another key, then described again after a reconnect. -/
def alteredStream : List BackendMessage :=
  [.xLogData 0 0 (.begin 0x30 0 7),
    .xLogData 0 0 (.relation ⟨1, "public", "users", 'd', [⟨1, "id", 23⟩, ⟨0, "name", 25⟩, ⟨0, "age", 23⟩]⟩),
    .xLogData 0 0 (.relation ⟨2, "public", "teams", 'd', [⟨1, "id", 23⟩]⟩),
    .malformed (.new "unexpected EOF"),
    .xLogData 0 0 (.relation ⟨1, "public", "people", 'f', [⟨1, "id", 20⟩, ⟨1, "name", 25⟩, ⟨0, "email", 25⟩]⟩),
    .xLogData 0 0 (.relation ⟨1, "public", "people", 'f', [⟨1, "id", 20⟩, ⟨1, "name", 25⟩, ⟨0, "email", 25⟩]⟩)]

def plainTypes : TypeMap String := ⟨fun _ => none, fun _ => ""⟩

theorem schema_changes_reconstruct_altered :
    (descriptions plainTypes 1 newDecoder alteredStream).map (·.2.map (·.kinds)) =
      [[], [[.tableRenamed, .columnAdded, .columnDropped, .columnTypeChanged, .replicaIdentity]], []] ∧
    let read := descriptions plainTypes 1 newDecoder alteredStream
    (∀ first ∈ read[0]?, ∀ n, ∀ cur ∈ read[n]?, replayChanges first.1.view (read.take (n + 1)) = cur.1.view) ∧
      ∀ n, ∀ prev ∈ read[n]?, ∀ cur ∈ read[n + 1]?, (cur.2 = [] ↔ prev.1.view = cur.1.view) :=
  ⟨by decide, schema_changes_reconstruct plainTypes 1 alteredStream (by decide)⟩

end Gtc
