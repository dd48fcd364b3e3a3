/-
Breaking schema changes: which ones take something from a consumer.

`TableView.Extends` is what a consumer of the old description can rely on in
the new one: it finds the table under the same name, addresses rows by the same
key, and finds every column it knows with the type it knows. A diff is breaking
exactly when this fails (`breaking_exact`), and so a relation whose schema
changes are all additive extends its first description for good
(`extends_of_additive`).
-/
import Gtc.Wal.SchemaHistory

namespace Gtc

variable {V : Type}

def SchemaChangeKind.breaking : SchemaChangeKind → Bool
  | .columnDropped | .columnTypeChanged | .keyChanged | .replicaIdentity | .tableRenamed => true
  | .columnAdded => false

/-- `SchemaChange.Breaking`. -/
def SchemaChange.breaking (s : SchemaChange) : Bool := s.kinds.any (·.breaking)

/-- Nothing that is known of `view` is different in `view'`. -/
structure TableView.Extends (view view' : TableView) : Prop where
  schema : view.schema = view'.schema
  table : view.table = view'.table
  replicaIdentity : view.replicaIdentity = view'.replicaIdentity
  keyColumns : view.keyColumns = view'.keyColumns
  columns : ∀ name oid, view.columns name = some oid → view'.columns name = some oid

theorem TableView.Extends.refl (view : TableView) : view.Extends view :=
  ⟨rfl, rfl, rfl, rfl, fun _ _ h => h⟩

theorem TableView.Extends.trans {view view' view'' : TableView} (h : view.Extends view') (h' : view'.Extends view'') :
    view.Extends view'' where
  schema := h.schema.trans h'.schema
  table := h.table.trans h'.table
  replicaIdentity := h.replicaIdentity.trans h'.replicaIdentity
  keyColumns := h.keyColumns.trans h'.keyColumns
  columns name oid hname := h'.columns name oid (h.columns name oid hname)

section Diff

variable {typeName : ℕ → String} {txn : TxnState} {prev cur : Relation} {lsn : LSN}

/-- What the diff of two descriptions leaves alone when it is not breaking. -/
theorem not_breaking_iff : (∀ change ∈ diffRelation typeName txn prev cur lsn, change.breaking = false) ↔
    (prev.namespace_ = cur.namespace_ ∧ prev.relationName = cur.relationName) ∧
      droppedColumns typeName prev cur = [] ∧ changedColumns typeName prev cur = [] ∧
      prev.replicaIdentity = cur.replicaIdentity ∧ prev.keyColumns = cur.keyColumns := by
  cases hdiff : diffRelation typeName txn prev cur lsn with
  | none =>
    obtain ⟨hname, -, hdropped, hchanged, hreplica, hkeys⟩ := diffRelation_eq_none.mp hdiff
    simp [hname, hdropped, hchanged, hreplica, hkeys]
  | some change =>
    simp only [diffRelation, Option.ite_none_left_eq_some, Option.some.injEq] at hdiff
    obtain ⟨-, rfl⟩ := hdiff
    simp only [Option.mem_some, forall_eq', SchemaChange.breaking, List.any_append, Bool.or_eq_false_iff]
    -- the key columns are looked at only when the replica identity is the same
    by_cases hreplica : prev.replicaIdentity = cur.replicaIdentity
    · simp [hreplica, SchemaChangeKind.breaking, not_or, and_assoc]
    · simp [hreplica, SchemaChangeKind.breaking]

/-- A column of `prev` is there with its type exactly if the diff reports it neither
as dropped nor as changed. -/
theorem kept_columns_iff (typeName : ℕ → String) (hprev : prev.DistinctColumns) (hcur : cur.DistinctColumns) :
    (droppedColumns typeName prev cur = [] ∧ changedColumns typeName prev cur = []) ↔
      ∀ col ∈ prev.columns, ∃ now ∈ cur.columns, now.name = col.name ∧ now.dataType = col.dataType := by
  constructor
  · rintro ⟨hdropped, hchanged⟩ col hcol
    cases hnow : cur.column col.name with
    | none =>
      have hreported : columnDef typeName col ∈ droppedColumns typeName prev cur :=
        mem_droppedColumns.mpr ⟨col, hcol, hnow, rfl⟩
      rw [hdropped] at hreported
      cases hreported
    | some now =>
      obtain ⟨hmem, hname⟩ := (Relation.column_eq_some hcur).mp hnow
      refine ⟨now, hmem, hname, ?_⟩
      by_contra htype
      have hbefore := (Relation.column_eq_some hprev).mpr ⟨hcol, hname.symm⟩
      have hreported : _ ∈ changedColumns typeName prev cur :=
        mem_changedColumns.mpr ⟨now, hmem, col, hbefore, Ne.symm htype, rfl⟩
      rw [hchanged] at hreported
      cases hreported
  · intro h
    constructor
    · refine List.eq_nil_iff_forall_not_mem.mpr fun c hc => ?_
      obtain ⟨col, hcol, hgone, -⟩ := mem_droppedColumns.mp hc
      obtain ⟨now, hnow, hname, -⟩ := h col hcol
      exact Relation.column_eq_none.mp hgone now hnow hname
    · refine List.eq_nil_iff_forall_not_mem.mpr fun c hc => ?_
      obtain ⟨now, hnow, before, hbefore, htype, -⟩ := mem_changedColumns.mp hc
      obtain ⟨hmem, hname⟩ := (Relation.column_eq_some hprev).mp hbefore
      obtain ⟨now', hnow', hname', htype'⟩ := h before hmem
      have hsame : now' = now := List.inj_on_of_nodup_map hcur hnow' hnow (hname'.trans hname)
      exact htype (by rw [← htype', hsame])

/-- **Breaking is exact**: for two descriptions with distinct column names, there is
no schema change or one that is not breaking exactly if the table's name, its
replica identity and its key columns are the same and every column of the old
description is in the new one with the same type. -/
theorem breaking_exact (typeName : ℕ → String) (txn : TxnState) (lsn : LSN) (hprev : prev.DistinctColumns)
    (hcur : cur.DistinctColumns) :
    (∀ change ∈ diffRelation typeName txn prev cur lsn, change.breaking = false) ↔
      prev.namespace_ = cur.namespace_ ∧ prev.relationName = cur.relationName ∧
        prev.replicaIdentity = cur.replicaIdentity ∧ prev.keyColumns = cur.keyColumns ∧
        ∀ col ∈ prev.columns, ∃ now ∈ cur.columns, now.name = col.name ∧ now.dataType = col.dataType := by
  rw [not_breaking_iff, ← kept_columns_iff typeName hprev hcur]
  tauto

/-- The same in the consumer's terms. -/
theorem not_breaking_iff_extends (hprev : prev.DistinctColumns) (hcur : cur.DistinctColumns) :
    (∀ change ∈ diffRelation typeName txn prev cur lsn, change.breaking = false) ↔ prev.view.Extends cur.view := by
  rw [not_breaking_iff, ← and_assoc (a := _ = []), kept_columns_iff typeName hprev hcur]
  constructor
  · rintro ⟨⟨hschema, htable⟩, hcolumns, hreplica, hkeys⟩
    refine ⟨hschema, htable, congrArg Char.toString hreplica, hkeys, fun name oid h => ?_⟩
    obtain ⟨col, hcol, rfl⟩ := Option.map_eq_some_iff.mp h
    obtain ⟨hmem, rfl⟩ := (Relation.column_eq_some hprev).mp hcol
    obtain ⟨now, hnow, hname, htype⟩ := hcolumns col hmem
    exact Option.map_eq_some_iff.mpr ⟨now, (Relation.column_eq_some hcur).mpr ⟨hnow, hname⟩, htype⟩
  · intro h
    refine ⟨⟨h.schema, h.table⟩, fun col hcol => ?_, charString_inj h.replicaIdentity, h.keyColumns⟩
    have hknown : prev.view.columns col.name = some col.dataType :=
      Option.map_eq_some_iff.mpr ⟨col, (Relation.column_eq_some hprev).mpr ⟨hcol, rfl⟩, rfl⟩
    obtain ⟨now, hnow, htype⟩ := Option.map_eq_some_iff.mp (h.columns _ _ hknown)
    obtain ⟨hmem, hname⟩ := (Relation.column_eq_some hcur).mp hnow
    exact ⟨now, hmem, hname, htype⟩

end Diff

/-- A column is added, and the column list reordered. -/
theorem breaking_exact_added :
    let prev : Relation := ⟨1, "public", "users", 'd', [⟨1, "id", 23⟩, ⟨0, "name", 25⟩]⟩
    let cur : Relation := ⟨1, "public", "users", 'd', [⟨0, "name", 25⟩, ⟨0, "email", 25⟩, ⟨1, "id", 23⟩]⟩
    (diffRelation (fun _ => "") {} prev cur 0).map (·.kinds) = some [.columnAdded] ∧
      ∀ change ∈ diffRelation (fun _ => "") {} prev cur 0, change.breaking = false :=
  ⟨by decide, (breaking_exact (fun _ => "") {} 0 (by decide) (by decide)).mpr (by decide)⟩

/-! ## Over a stream -/

/-- Where no schema change is breaking, every description extends the one the
stream starts from. -/
theorem Diffs.extends {tm : TypeMap V} {prev : Relation} {read : List (Relation × List SchemaChange)}
    (h : Diffs tm (some prev) read) (hprev : prev.DistinctColumns)
    (hadditive : ∀ r ∈ read, ∀ change ∈ r.2, change.breaking = false) : ∀ r ∈ read, prev.view.Extends r.1.view := by
  induction read generalizing prev with
  | nil => simp
  | cons r read ih =>
    obtain ⟨rel, changes⟩ := r
    obtain ⟨hdistinct, ⟨txn, lsn, rfl⟩, hrest⟩ := h
    have hfirst : ∀ change ∈ diffRelation (typeName tm) txn prev rel lsn, change.breaking = false := fun change hchange =>
      hadditive _ List.mem_cons_self change (Option.mem_toList.mpr hchange)
    have hstep := (not_breaking_iff_extends hprev hdistinct).mp hfirst
    intro r hr
    rcases List.mem_cons.mp hr with rfl | hr
    · exact hstep
    · exact hstep.trans (ih hrest hdistinct (fun r hr => hadditive r (by simp [hr])) r hr)

/-- **Additive changes take nothing away**: as long as the schema changes emitted for
a relation are not breaking, what its first description says stays true. -/
theorem extends_of_additive (tm : TypeMap V) (id : ℕ) (ms : List BackendMessage)
    (hms : ∀ m ∈ ms, ∀ rel ∈ describes id m, rel.DistinctColumns)
    (hadditive : ∀ r ∈ descriptions tm id newDecoder ms, ∀ change ∈ r.2, change.breaking = false)
    {first : Relation × List SchemaChange} (hfirst : (descriptions tm id newDecoder ms).head? = some first) :
    ∀ r ∈ descriptions tm id newDecoder ms, first.1.view.Extends r.1.view := by
  have hread : Diffs tm none (descriptions tm id newDecoder ms) := descriptions_diffs tm id hms newDecoder
  cases hlist : descriptions tm id newDecoder ms with
  | nil => simp
  | cons r read =>
    rw [hlist] at hread hadditive hfirst
    cases hfirst
    obtain ⟨hdistinct, -, hrest⟩ := hread
    intro r' hr'
    rcases List.mem_cons.mp hr' with rfl | hr'
    · exact .refl _
    · exact hrest.extends hdistinct (fun r hr => hadditive r (by simp [hr])) r' hr'

end Gtc
