/-
The document sinks as mirrors of a table: Redis documents and Meilisearch
documents, one per row.

Both sinks act on one key per event (`JSONSink.present_process`,
`MeiliSink.present_passes`): an UPDATE writes the document of the new key, and
the old key in `OldData` is not looked at. So a row whose primary key changes
leaves its document behind, and what the mirror holds is `Lib.mirrored` of the
table's history.
-/
import Gtc.Lib.Mirror
import Gtc.Sink.MeiliReplay
import Gtc.Sink.Redis

namespace Gtc

open Lib

variable {V : Type}

/-! ## A table's events -/

/-- The primary-key values, each read from the first row that has the column. -/
def HoldsKey (pk : List String) (first second : Option (Data V)) (key : List V) : Prop :=
  pk.map (fun name => (first.bind (·.get name)).or (second.bind (·.get name))) = key.map (some ∘ some)

/-- The event is PostgreSQL's report of the change: `OldData` has the old key of an
UPDATE that changes it, and may be missing when it does not. A key column whose
TOASTed value did not change is only in `OldData`. -/
inductive Reports (schema table : String) (pk : List String) (event : CDCEvent V) : RowChange (List V) → Prop
  | insert {data new} : event.schema = schema → event.table = table → event.operation = .insert →
      event.newData = some data → event.oldData = none → HoldsKey pk (some data) none new →
      Reports schema table pk event (.insert new)
  | update {data old new} : event.schema = schema → event.table = table → event.operation = .update →
      event.newData = some data → HoldsKey pk event.oldData (some data) old → HoldsKey pk (some data) event.oldData new →
      Reports schema table pk event (.update old new)
  | delete {data old} : event.schema = schema → event.table = table → event.operation = .delete →
      event.newData = none → event.oldData = some data → HoldsKey pk (some data) none old →
      Reports schema table pk event (.delete old)

/-- The keys of the documents that are there. -/
def present {F X : Type} (docs : Documents String F X) : Set String := {key | (docs key).isSome}

theorem present_update_some {F X : Type} (docs : Documents String F X) (key : String) (doc : Document F X) :
    present (Function.update docs key (some doc)) = insert key (present docs) := by
  ext k
  by_cases hk : k = key <;> simp [present, hk, Function.update_of_ne]

theorem present_update_none {F X : Type} (docs : Documents String F X) (key : String) :
    present (Function.update docs key none) = present docs \ {key} := by
  ext k
  by_cases hk : k = key <;> simp [present, hk, Function.update_of_ne]

/-- What holds of a mirror after the changes: the documents present are the ones
written and not removed since; and when rows of different keys have different
documents, they are those of the rows in the table just when no UPDATE moved a
row away from a key that no later change concerns. -/
structure MirrorsExactly (doc : List V → String) (changes : List (RowChange (List V))) (docs : Set String) : Prop where
  written : ∀ d, d ∈ docs ↔ Written doc changes d
  exact_iff : Set.InjOn doc (keysOf changes) →
    (docs = Set.image doc (rowsAfter changes) ↔ ∀ key, ¬ LeftBehind changes key)

theorem mirrorsExactly_mirrored (doc : List V → String) {changes : List (RowChange (List V))} (h : TableHistory changes) :
    MirrorsExactly doc changes (mirrored doc changes) :=
  ⟨mem_mirrored doc changes, mirrored_eq_image_iff h⟩

/-! ## Redis documents -/

/-- The key pattern is built from the prefix, the schema, the table and the
primary-key fields: for the events of a table it renders these fields. -/
def KeyResolver.BuiltFrom (kr : KeyResolver V) (print : V → String) (schema table : String) (pk : List String)
    (render : List String → String) : Prop :=
  ∀ event : CDCEvent V, event.schema = schema → event.table = table →
    kr.generateKey event = .ok (render (pk.map ((newKeyTemplateContext "" event).field print)))

/-- The document key of a row. -/
def redisKey (print : V → String) (render : List String → String) (key : List V) : String := render (key.map print)

theorem field_eq (print : V → String) (prefix_ : String) (event : CDCEvent V) (name : String) :
    (newKeyTemplateContext prefix_ event).field print name =
      (((event.newData.bind (·.get name)).or (event.oldData.bind (·.get name))).map (formatFieldValue print)).getD "" := by
  simp only [KeyTemplateContext.field, newKeyTemplateContext]
  cases event.newData.bind (·.get name) with
  | some val => rfl
  | none => cases event.oldData.bind (·.get name) <;> rfl

theorem HoldsKey.fields {pk : List String} {event : CDCEvent V} {key : List V}
    (h : HoldsKey pk event.newData event.oldData key) (print : V → String) :
    pk.map ((newKeyTemplateContext "" event).field print) = key.map print := by
  have hmap := congrArg (List.map fun val => (val.map (formatFieldValue print)).getD "") h
  rw [List.map_map, List.map_map] at hmap
  simp only [funext (field_eq print "" event)]
  exact hmap

namespace JSONSink

variable {s : JSONSink V} {mergeValue : Option V → V → V} {print : V → String} {schema table : String}
  {pk : List String} {render : List String → String}

/-- The command of an event acts on one key. -/
theorem present_command (hprocess : s.resolver.shouldProcess schema table = true)
    (hbuilt : s.resolver.BuiltFrom print schema table pk render) {event : CDCEvent V} {c : RowChange (List V)}
    (hreports : Reports schema table pk event c) {command : Option (JSONCommand V)}
    (h : s.command event = .ok command) (docs : JSONDocuments V) :
    present (command.toList.foldl (JSONCommand.apply mergeValue) docs) = c.mirror (redisKey print render) (present docs) := by
  have hkey (key : List V) (hschema : event.schema = schema) (htable : event.table = table)
      (hholds : HoldsKey pk event.newData event.oldData key) :
      s.generateKey event = .ok (redisKey print render key) := by
    rw [RedisBase.generateKey, hbuilt event hschema htable, hholds.fields]
    rfl
  cases hreports with
  | @insert data new hschema htable hop hnew hold hholds =>
    have hkey := hkey new hschema htable (by rw [hnew, hold]; exact hholds)
    simp only [JSONSink.command, RedisBase.shouldProcess, hschema, htable, hprocess, hop, hnew, hkey] at h
    cases hmarshal : s.marshal data with
    | some err => simp [hmarshal] at h
    | none =>
      simp [hmarshal] at h
      subst h
      exact present_update_some docs _ _
  | @update data old new hschema htable hop hnew _ hholds =>
    have hkey := hkey new hschema htable (by rw [hnew]; exact hholds)
    simp only [JSONSink.command, RedisBase.shouldProcess, hschema, htable, hprocess, hop, hnew, hkey] at h
    cases hmarshal : s.marshal data with
    | some err => simp [hmarshal] at h
    | none =>
      -- JSON.MERGE creates the document as JSON.SET does.
      by_cases htoast : event.unchangedToastColumns = []
      · simp [hmarshal, htoast] at h
        subst h
        exact present_update_some docs _ _
      · simp [hmarshal, htoast] at h
        subst h
        exact present_update_some docs _ _
  | @delete data old hschema htable hop hnew hold hholds =>
    have hkey := hkey old hschema htable (by rw [hnew, hold]; simpa [HoldsKey] using hholds)
    simp [JSONSink.command, RedisBase.shouldProcess, hschema, htable, hprocess, hop, hkey] at h
    subst h
    exact present_update_none docs _

theorem commands_append {events events' : List (CDCEvent V)} {commands commands' : List (JSONCommand V)}
    (h : s.commands events = .ok commands) (h' : s.commands events' = .ok commands') :
    s.commands (events ++ events') = .ok (commands ++ commands') := by
  induction events generalizing commands with
  | nil =>
    cases h
    exact h'
  | cons event events ih =>
    simp only [JSONSink.commands, List.cons_append] at h ⊢
    cases hcommand : s.command event with
    | error err => simp [hcommand] at h
    | ok command =>
      simp only [hcommand, map_eq_ok] at h ⊢
      obtain ⟨rest, hrest, rfl⟩ := h
      exact ⟨rest ++ commands', ih hrest, by simp⟩

/-- The batches one after the other. -/
def processAll (s : JSONSink V) (mergeValue : Option V → V → V) (batches : List (List (CDCEvent V)))
    (docs : JSONDocuments V) : Except Err (JSONDocuments V) :=
  batches.foldlM (fun docs batch => s.process mergeValue batch docs) docs

theorem commands_of_processAll {batches : List (List (CDCEvent V))} {docs docs' : JSONDocuments V}
    (h : s.processAll mergeValue batches docs = .ok docs') :
    ∃ commands, s.commands batches.flatten = .ok commands ∧ docs' = commands.foldl (JSONCommand.apply mergeValue) docs := by
  induction batches generalizing docs with
  | nil =>
    cases h
    exact ⟨[], rfl, rfl⟩
  | cons batch batches ih =>
    rw [processAll, List.foldlM_cons, bind_eq_ok] at h
    obtain ⟨docs₁, hbatch, h⟩ := h
    obtain ⟨commands, hcommands, rfl⟩ := map_eq_ok.mp hbatch
    obtain ⟨rest, hrest, rfl⟩ := ih h
    exact ⟨commands ++ rest, commands_append hcommands hrest, by rw [List.foldl_append]⟩

/-- **Redis documents**: after any cut of the table's events into batches the
documents are the mirrored ones. -/
theorem present_process (hprocess : s.resolver.shouldProcess schema table = true)
    (hbuilt : s.resolver.BuiltFrom print schema table pk render) {events : List (CDCEvent V)}
    {changes : List (RowChange (List V))} (hreports : List.Forall₂ (Reports schema table pk) events changes)
    {commands : List (JSONCommand V)} (h : s.commands events = .ok commands) (docs : JSONDocuments V) :
    present (commands.foldl (JSONCommand.apply mergeValue) docs) =
      changes.foldl (RowChange.mirror (redisKey print render)) (present docs) := by
  induction hreports generalizing commands docs with
  | nil =>
    cases h
    rfl
  | @cons event c events changes hevent _ ih =>
    simp only [JSONSink.commands] at h
    cases hcommand : s.command event with
    | error err => simp [hcommand] at h
    | ok command =>
      simp only [hcommand, map_eq_ok] at h
      obtain ⟨rest, hrest, rfl⟩ := h
      rw [List.foldl_append, ih hrest, List.foldl_cons, present_command hprocess hbuilt hevent hcommand]

end JSONSink

/-! ## Meilisearch documents -/

/-- The document identifier of a row. -/
def meiliKey (s : MeiliSink V) (key : List V) : String := (key.head?.map s.sprint).getD ""

namespace MeiliSink

variable {s : MeiliSink V} {schema table index : String}

/-- A batch with a plan has a document key in every row it writes. -/
theorem plan_keyed {events : List (CDCEvent V)} {p : BatchPlan V} (h : s.plan events = .ok p) :
    ∀ event ∈ events, ∀ data, s.config.getIndex event.schema event.table = some index →
      (event.operation = .insert ∨ event.operation = .update) → event.newData = some data →
      (s.keyOf (s.config.getPrimaryKey event.schema event.table) data).isSome := by
  refine plan_induction (P := fun events _ => ∀ event ∈ events, ∀ data,
    s.config.getIndex event.schema event.table = some index →
      (event.operation = .insert ∨ event.operation = .update) → event.newData = some data →
      (s.keyOf (s.config.getPrimaryKey event.schema event.table) data).isSome) (by simp) ?_ h
  intro events p event p' ih hplan e he data hindex hop hnew
  rcases List.mem_append.mp he with he | he
  · exact ih e he data hindex hop hnew
  · rw [List.mem_singleton.mp he] at hindex hop hnew ⊢
    rcases hop with hop | hop <;> simp only [planEvent, hindex, hop, hnew] at hplan <;>
      split at hplan <;> simp_all

theorem keyed_of_passes (index : String) {keys : String → String} (hkeys : s.config.KeyedBy keys) {batches : List (List (CDCEvent V))}
    {st st' : MeiliState V} (h : Passes s st batches st') (hpending : st.pending = none) :
    ∀ event ∈ batches.flatten, ∀ data, s.config.getIndex event.schema event.table = some index →
      (event.operation = .insert ∨ event.operation = .update) → event.newData = some data →
      (s.keyOf (s.config.getPrimaryKey event.schema event.table) data).isSome := by
  induction h with
  | nil => simp
  | @cons st st₁ st' batch batches fates hprocess _ ih =>
    intro event hevent
    rcases List.mem_append.mp (List.flatten_cons ▸ hevent) with hmem | hmem
    · obtain ⟨p, hplan⟩ := exists_plan_of_process hpending hprocess
      exact plan_keyed hplan event hmem
    · exact ih (pending_of_process hkeys hpending hprocess) event hmem

/-- The write of an event is at one key. -/
theorem present_eventWrite (hindex : s.config.getIndex schema table = some index) {event : CDCEvent V}
    {c : RowChange (List V)} (hreports : Reports schema table [s.config.getPrimaryKey schema table] event c)
    (hkeyed : ∀ data, (event.operation = .insert ∨ event.operation = .update) → event.newData = some data →
      (s.keyOf (s.config.getPrimaryKey schema table) data).isSome) :
    ∃ w, s.eventWrite event = some (index, w) ∧
      ∀ docs, present (w.apply docs) = c.mirror (meiliKey s) (present docs) := by
  -- The key that the row holds is the one that is printed.
  have hprinted {data : Data V} {second : Option (Data V)} {key : List V}
      (hsome : (data.get (s.config.getPrimaryKey schema table)).join.isSome)
      (hholds : HoldsKey [s.config.getPrimaryKey schema table] (some data) second key) :
      s.keyOf (s.config.getPrimaryKey schema table) data = some (meiliKey s key) := by
    cases hget : data.get (s.config.getPrimaryKey schema table) with
    | none => simp [hget] at hsome
    | some val =>
      cases val with
      | none => simp [hget] at hsome
      | some v =>
        cases key with
        | nil => simp [HoldsKey] at hholds
        | cons v' rest =>
          simp only [HoldsKey, List.map_cons, List.map_nil, Option.bind_some, hget, Option.some_or,
            Function.comp_apply, List.cons.injEq, Option.some.injEq] at hholds
          simp [keyOf, hget, meiliKey, hholds.1]
  have hjoin {data : Data V} (hsome : (s.keyOf (s.config.getPrimaryKey schema table) data).isSome) :
      (data.get (s.config.getPrimaryKey schema table)).join.isSome := by
    simpa only [keyOf, Option.isSome_map] using hsome
  cases hreports with
  | @insert data new hschema htable hop hnew _ hholds =>
    refine ⟨.replace (meiliKey s new) data.doc, ?_, fun docs => present_update_some docs _ _⟩
    simp [eventWrite, hschema, htable, hindex, hop, hnew, hprinted (hjoin (hkeyed data (.inl hop) hnew)) hholds]
  | @update data old new hschema htable hop hnew _ hholds =>
    refine ⟨.merge (meiliKey s new) data.doc, ?_, fun docs => present_update_some docs _ _⟩
    simp [eventWrite, hschema, htable, hindex, hop, hnew, hprinted (hjoin (hkeyed data (.inr hop) hnew)) hholds]
  | @delete data old hschema htable hop hnew hold hholds =>
    have hsome : (data.get (s.config.getPrimaryKey schema table)).join.isSome := by
      cases old with
      | nil => simp [HoldsKey] at hholds
      | cons v rest =>
        simp only [HoldsKey, List.map_cons, List.map_nil, Option.bind_some, Option.bind_none, Option.or_none,
          Function.comp_apply, List.cons.injEq] at hholds
        simp [hholds.1]
    refine ⟨.delete (meiliKey s old), ?_, fun docs => present_update_none docs _⟩
    simp [eventWrite, hschema, htable, hindex, hop, hold, hprinted hsome hholds]

/-- **Meilisearch documents**: after any cut of the table's events into batches that
are processed with success, the documents of the table's index are the mirrored
ones. -/
theorem present_passes {keys : String → String} (hkeys : s.config.KeyedBy keys)
    (hindex : s.config.getIndex schema table = some index) {batches : List (List (CDCEvent V))}
    {changes : List (RowChange (List V))}
    (hreports : List.Forall₂ (Reports schema table [s.config.getPrimaryKey schema table]) batches.flatten changes)
    {st st' : MeiliState V} (hpending : st.pending = none) (h : Passes s st batches st') :
    present (st'.indexes index) = changes.foldl (RowChange.mirror (meiliKey s)) (present (st.indexes index)) := by
  rw [h.fresh hkeys hpending]
  have hkeyed := keyed_of_passes index hkeys h hpending
  clear h
  generalize batches.flatten = events at hreports hkeyed
  generalize st.indexes index = docs
  induction hreports generalizing docs with
  | nil => rfl
  | @cons event c events changes hevent _ ih =>
    have htable : event.schema = schema ∧ event.table = table := by cases hevent <;> exact ⟨‹_›, ‹_›⟩
    obtain ⟨w, hw, hmirror⟩ := present_eventWrite hindex hevent fun data hop hnew => by
      have hsome := hkeyed event (by simp) data (by rw [htable.1, htable.2]; exact hindex) hop hnew
      rwa [htable.1, htable.2] at hsome
    rw [← List.singleton_append, eventWrites_append, eventWrites_of_eq hw, applyAll_append, List.foldl_cons,
      ih fun e he => hkeyed e (by simp [he])]
    exact congrArg (changes.foldl _) (hmirror docs)

end MeiliSink

/-! ## One document per row -/

/-- **One document per row, unless a row's key changed.** For the Redis document sink
with a key pattern over the primary key, for the Meilisearch sink, and for every
history of a table that starts empty, in any cut into batches that are processed
with success, from an empty mirror. -/
theorem documents_match_rows_iff :
    (∀ (s : JSONSink V) (mergeValue : Option V → V → V) (print : V → String) (render : List String → String)
      (schema table : String) (pk : List String) (batches : List (List (CDCEvent V)))
      (changes : List (RowChange (List V))) (docs : JSONDocuments V),
      s.resolver.shouldProcess schema table = true → s.resolver.BuiltFrom print schema table pk render →
      TableHistory changes → List.Forall₂ (Reports schema table pk) batches.flatten changes →
      s.processAll mergeValue batches (fun _ => none) = .ok docs →
      MirrorsExactly (redisKey print render) changes (present docs)) ∧
    (∀ (s : MeiliSink V) (settings : List (String × MeiliIndexSettings)) (schema table index : String)
      (batches : List (List (CDCEvent V))) (changes : List (RowChange (List V))) (st : MeiliState V),
      s.config.indexSettings = .ok settings → s.config.getIndex schema table = some index →
      TableHistory changes →
      List.Forall₂ (Reports schema table [s.config.getPrimaryKey schema table]) batches.flatten changes →
      Passes s { indexes := fun _ _ => none, pending := none } batches st →
      MirrorsExactly (meiliKey s) changes (present (st.indexes index))) := by
  have hempty : present (fun _ => none : JSONDocuments V) = ∅ := by simp [present]
  constructor
  · intro s mergeValue print render schema table pk batches changes docs hprocess hbuilt hhistory hreports hdocs
    obtain ⟨commands, hcommands, rfl⟩ := JSONSink.commands_of_processAll hdocs
    rw [JSONSink.present_process hprocess hbuilt hreports hcommands, hempty]
    exact mirrorsExactly_mirrored _ hhistory
  · intro s settings schema table index batches changes st hsettings hindex hhistory hreports hpasses
    obtain ⟨keys, hkeys⟩ := MeilisearchSinkConfig.keyedBy_of_indexSettings hsettings
    rw [MeiliSink.present_passes hkeys hindex hreports rfl hpasses, hempty]
    exact mirrorsExactly_mirrored _ hhistory

/-- `{{.Prefix}}:{{.Schema}}:{{.Table}}:{{.Field "id"}}`. -/
def userDocuments : JSONSink ℕ where
  resolver :=
    { parse := fun _ => .ok fun ctx =>
        .ok (ctx.prefix_ ++ ":" ++ ctx.schema ++ ":" ++ ctx.table ++ ":" ++ ctx.field (fun n => toString n) "id")
      config := { syncAll := true, defaultKeyPattern := "", tables := [] }
      prefixTemplate := fun _ => .ok "json"
      defaultPattern := "" }
  marshal _ := none

def userDocument (fields : List String) : String := "json:public:users:" ++ fields.headD ""

theorem userDocuments_builtFrom :
    userDocuments.resolver.BuiltFrom (fun n => toString n) "public" "users" ["id"] userDocument := by
  rintro ⟨id, operation, schema, table, oldData, newData, toast, metadata⟩ hschema htable
  simp only at hschema htable
  subst hschema htable
  rfl

/-- A row is inserted and its key changed. -/
def movedRow : List (RowChange (List ℕ)) := [.insert [1], .update [1] [2]]

def movedEvents : List (CDCEvent ℕ) :=
  [tableChange "0/1" "users" .insert none (some [("id", some 1)]),
    tableChange "0/2" "users" .update (some [("id", some 1)]) (some [("id", some 2)])]

theorem movedRow_history : TableHistory movedRow := by
  have hinserted : TableHistory [RowChange.insert [1]] := @TableHistory.snoc _ [] _ .nil (by simp [RowChange.Possible])
  exact @TableHistory.snoc _ _ (.update [1] [2]) hinserted (by simp [RowChange.Possible, rowsAfter, RowChange.apply])

theorem movedEvents_reports : List.Forall₂ (Reports "public" "users" ["id"]) movedEvents movedRow :=
  .cons (.insert rfl rfl rfl rfl rfl rfl) (.cons (.update rfl rfl rfl rfl rfl rfl) .nil)

/-- The key the row had is taken by another row, which is deleted. -/
def reusedKey : List (RowChange (List ℕ)) := movedRow ++ [.insert [1]] ++ [.delete [1]]

def reusedBatches : List (List (CDCEvent ℕ)) :=
  [movedEvents ++ [tableChange "0/3" "users" .insert none (some [("id", some 1)])],
    [tableChange "0/4" "users" .delete (some [("id", some 1)]) none]]

theorem reusedKey_history : TableHistory reusedKey := by
  refine .snoc (.snoc movedRow_history ?_) ?_ <;> simp [RowChange.Possible, movedRow, rowsAfter, RowChange.apply]

theorem reusedBatches_reports : List.Forall₂ (Reports "public" "users" ["id"]) reusedBatches.flatten reusedKey :=
  .cons (.insert rfl rfl rfl rfl rfl rfl) (.cons (.update rfl rfl rfl rfl rfl rfl)
    (.cons (.insert rfl rfl rfl rfl rfl rfl) (.cons (.delete rfl rfl rfl rfl rfl rfl) .nil)))

theorem reusedKey_not_leftBehind (key : List ℕ) : ¬ LeftBehind reusedKey key := by
  have hmoved : LeftBehind movedRow key → key = [1] := by
    rw [show movedRow = [RowChange.insert [1]] ++ [.update [1] [2]] from rfl, LeftBehind, lastIs_concat]
    rintro (h | ⟨⟨before, c, after, hsplit, hleaves, -⟩, -⟩)
    · exact h.1
    · have hc : c = .insert [1] := List.mem_singleton.mp (hsplit ▸ by simp)
      rw [hc] at hleaves
      exact hleaves.elim
  rw [reusedKey, LeftBehind, lastIs_concat, lastIs_concat]
  rintro (h | ⟨h | ⟨hleft, -⟩, hdelete⟩)
  · exact h.elim
  · exact h.elim
  · exact hdelete (hmoved hleft)

theorem injOn_reusedKey {doc : List ℕ → String} (h : doc [1] ≠ doc [2]) : Set.InjOn doc (keysOf reusedKey) := by
  have hkeys : ∀ k ∈ keysOf reusedKey, k = [1] ∨ k = [2] := by
    rintro k ⟨c, hc, hk⟩
    simp only [reusedKey, movedRow, List.cons_append, List.nil_append, List.mem_cons, List.not_mem_nil, or_false] at hc
    rcases hc with rfl | rfl | rfl | rfl
    · exact .inl hk
    · exact hk
    · exact .inl hk
    · exact .inl hk
  intro a ha b hb heq
  rcases hkeys a ha with rfl | rfl <;> rcases hkeys b hb with rfl | rfl
  · rfl
  · exact absurd heq h
  · exact absurd heq.symm h
  · rfl

theorem documents_match_rows_iff_reused :
    (∃ docs, userDocuments.processAll (fun _ v => v) reusedBatches (fun _ => none) = .ok docs ∧
      present docs = Set.image (redisKey (fun n => toString n) userDocument) (rowsAfter reusedKey)) ∧
    (∃ st, Passes sharedIndex emptyIndexes reusedBatches st ∧
      present (st.indexes "people") = Set.image (meiliKey sharedIndex) (rowsAfter reusedKey)) := by
  constructor
  · have hmirror := documents_match_rows_iff.1 userDocuments (fun _ v => v) (fun n => toString n) userDocument
      "public" "users" ["id"] reusedBatches reusedKey _ rfl userDocuments_builtFrom reusedKey_history
      reusedBatches_reports rfl
    exact ⟨_, rfl, (hmirror.exact_iff (injOn_reusedKey (by decide))).mpr reusedKey_not_leftBehind⟩
  · let st₁ := (sharedIndex.process (allSucceed .finished) reusedBatches[0] emptyIndexes).2
    let st₂ := (sharedIndex.process (allSucceed .finished) reusedBatches[1] st₁).2
    have hpasses : Passes sharedIndex emptyIndexes reusedBatches st₂ :=
      .cons _ (show sharedIndex.process (allSucceed .finished) _ emptyIndexes = (none, st₁) from
          Prod.ext (by decide +kernel) rfl)
        (.cons (allSucceed .finished) (Prod.ext (by decide +kernel) rfl) .nil)
    cases hsettings : sharedIndex.config.indexSettings with
    | error err =>
      have haccepted : sharedIndex.config.indexSettings.isOk = true := by decide
      rw [hsettings] at haccepted
      cases haccepted
    | ok settings =>
      have hmirror := documents_match_rows_iff.2 sharedIndex settings "public" "users" "people" reusedBatches reusedKey
        st₂ hsettings (by decide) reusedKey_history reusedBatches_reports hpasses
      exact ⟨st₂, hpasses, (hmirror.exact_iff (injOn_reusedKey (by decide))).mpr reusedKey_not_leftBehind⟩

/-- **A changed key leaves its document.** The row has key 2 now, and both sinks hold
the documents of keys 1 and 2. -/
theorem changed_key_leaves_document :
    TableHistory movedRow ∧ List.Forall₂ (Reports "public" "users" ["id"]) movedEvents movedRow ∧
    rowsAfter movedRow = {[2]} ∧
    (∃ docs, userDocuments.processAll (fun _ v => v) [movedEvents] (fun _ => none) = .ok docs ∧
      "json:public:users:1" ∈ present docs ∧
      present docs ≠ Set.image (redisKey (fun n => toString n) userDocument) (rowsAfter movedRow)) ∧
    (∃ st, Passes sharedIndex emptyIndexes [movedEvents] st ∧ "1" ∈ present (st.indexes "people") ∧
      present (st.indexes "people") ≠ Set.image (meiliKey sharedIndex) (rowsAfter movedRow)) := by
  have hrows : rowsAfter movedRow = {[2]} := by
    simp [movedRow, rowsAfter, RowChange.apply]
  have hredis : "json:public:users:1" ∉ Set.image (redisKey (fun n => toString n) userDocument) (rowsAfter movedRow) := by
    rw [hrows, Set.image_singleton]
    exact fun h => absurd (Set.mem_singleton_iff.mp h) (by decide)
  have hmeili : "1" ∉ Set.image (meiliKey sharedIndex) (rowsAfter movedRow) := by
    rw [hrows, Set.image_singleton]
    exact fun h => absurd (Set.mem_singleton_iff.mp h) (by decide)
  refine ⟨movedRow_history, movedEvents_reports, hrows, ?_, ?_⟩
  · have hmem : "json:public:users:1" ∈ present
        ((userDocuments.commands movedEvents).toOption.getD [] |>.foldl (JSONCommand.apply fun _ v => v) fun _ => none) := by
      show Option.isSome _ = true
      decide +kernel
    exact ⟨_, rfl, hmem, fun heq => hredis (heq ▸ hmem)⟩
  · let st := (sharedIndex.process (allSucceed .finished) movedEvents emptyIndexes).2
    have hmem : "1" ∈ present (st.indexes "people") := by
      show Option.isSome _ = true
      decide +kernel
    exact ⟨st, .cons (allSucceed .finished) (Prod.ext (by decide +kernel) rfl) .nil, hmem, fun heq => hmeili (heq ▸ hmem)⟩

end Gtc
