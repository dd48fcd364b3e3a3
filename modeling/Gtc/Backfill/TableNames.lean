/-
The names that progress is persisted under: `tableRef.String` joins schema and
table with a dot, and `splitTableName` takes them apart at the first one.

A name is the key of a table's row in the state table, and all that `Start` has
to tell which table the row is of. It says which one when the schema has no dot
(`splitTableName_string`), and PostgreSQL allows one. `Recorded` keeps what is
saved for each table beside the nodes, by table and not by name; while only
tables of such schemas are asked for, the state table is that record.
-/
import Mathlib.Data.List.TakeWhile
import Gtc.Backfill.Granted

namespace Gtc.Backfill

open Lib

variable {V : Type}

/-! ## Splitting a name -/

theorem splitTableName_ne_none (ref : TableRef) : splitTableName ref.string ≠ none := by
  unfold splitTableName
  split
  · rename_i hdrop
    have hall := List.dropWhile_eq_nil_iff.mp hdrop '.' (by simp [TableRef.toList_string])
    simp at hall
  · simp

/-- A name is split into the table it is of if the schema has no dot, and only
then. -/
theorem splitTableName_string (ref : TableRef) : splitTableName ref.string = some ref ↔ ref.Plain := by
  constructor
  · intro hsplit
    exact (splitTableName_spec hsplit).1
  · intro hplain
    obtain ⟨ref', hsplit⟩ := Option.ne_none_iff_exists'.mp (splitTableName_ne_none ref)
    obtain ⟨hplain', hname⟩ := splitTableName_spec hsplit
    rw [hsplit, TableRef.string_inj hplain' hplain hname]

/-! ## Writes of the state table -/

/-- The progress a step of a node saves, and of which table. -/
def Node.writes (node : Node V) : NodeAct V → List (TableRef × TableState)
  | .lane l (.save true) =>
    match node.lanes l with
    | .running run =>
      match run.point with
      | .save ts => [(run.ref, ts)]
      | _ => []
    | _ => []
  | .mark r true => ((node.requests r).map fun request => request.tables.map fun ref => (ref, {})).getD []
  | _ => []

def World.writes {N : Type} (w : World N V) : WorldAct N V → List (TableRef × TableState)
  | .node n a => ((w.nodes n).map fun node => node.writes a).getD []
  | _ => []

def StateMap.write (store : StateMap) (write : TableRef × TableState) : StateMap := store.insert write.1.string write.2

section Writes

variable [ToString V] {w w' : Shared V} {node node' : Node V}

theorem Node.step_writes {a : NodeAct V} (hstep : node.step w a = some (w', node')) :
    w'.store = (node.writes a).foldl StateMap.write w.store := by
  cases Node.steps_of_step hstep with
  | run hrun hstep =>
    cases hstep with
    | @save ts written hpoint => cases written <;> simp [Node.writes, hrun, hpoint, Shared.saveState, StateMap.write]
    | selected _ _ hnote =>
      obtain ⟨firsts, selected, -, rfl, rfl⟩ := Node.noteSelect_eq hnote
      rfl
    | _ => rfl
  | @mark r written request hrequest =>
    cases written with
    | false => rfl
    | true => simp [Node.writes, hrequest, Shared.markPending, List.foldl_map, StateMap.write]
  | _ => rfl

theorem World.step_writes {N : Type} [DecidableEq N] {w w' : World N V} {a : WorldAct N V} (hstep : w.step a = some w') :
    w'.shared.store = (w.writes a).foldl StateMap.write w.shared.store := by
  cases World.steps_of_step hstep with
  | node hn hnode =>
    simp only [World.writes, hn, Option.map_some, Option.getD_some]
    exact Node.step_writes hnode
  | _ => rfl

omit [ToString V] in
theorem Node.Plain.writes (hn : node.Plain) {a : NodeAct V} : ∀ write ∈ node.writes a, write.1.Plain := by
  intro write hwrite
  unfold Node.writes at hwrite
  split at hwrite
  · split at hwrite
    · rename_i run hrun
      split at hwrite
      · rename_i ts hpoint
        obtain rfl := List.mem_singleton.mp hwrite
        exact hn.held _ run.ref (by rw [hrun, Lane.table?_running (by rw [hpoint]; rfl)])
      · cases hwrite
    · cases hwrite
  · rename_i r
    cases hrequest : node.requests r with
    | none => simp [hrequest] at hwrite
    | some request =>
      simp only [hrequest, Option.map_some, Option.getD_some, List.mem_map] at hwrite
      obtain ⟨ref, href, rfl⟩ := hwrite
      exact hn.requests r request hrequest ref href
  · cases hwrite

end Writes

/-! ## Rows and tables -/

/-- The rows of the state table are those of the tables progress was saved for,
each under its table's name. -/
structure Rows (store : StateMap) (saved : TableRef → Option TableState) : Prop where
  plain : ∀ ref ts, saved ref = some ts → ref.Plain
  row : ∀ ref, ref.Plain → store.lookup ref.string = saved ref
  named : ∀ name ∈ store, ∃ ref : TableRef, ref.Plain ∧ ref.string = name

/-- One save, by table. -/
def record (saved : TableRef → Option TableState) (write : TableRef × TableState) : TableRef → Option TableState :=
  Function.update saved write.1 (some write.2)

section Rows

variable {store : StateMap} {saved : TableRef → Option TableState}

theorem rows_empty : Rows ∅ fun _ => none where
  plain _ _ hsaved := by cases hsaved
  row ref _ := AList.lookup_empty ref.string
  named name hname := absurd hname (AList.notMem_empty name)

theorem Rows.write (hr : Rows store saved) {write : TableRef × TableState} (hplain : write.1.Plain) :
    Rows (store.write write) (record saved write) := by
  obtain ⟨ref, ts⟩ := write
  refine ⟨fun ref' ts' hsaved => ?_, fun ref' hplain' => ?_, fun name hname => ?_⟩
  · by_cases href : ref' = ref
    · exact href ▸ hplain
    · rw [record, Function.update_of_ne href] at hsaved
      exact hr.plain ref' ts' hsaved
  · by_cases href : ref' = ref
    · subst href
      rw [StateMap.write, record, AList.lookup_insert, Function.update_self]
    · -- another table has another name
      have hname : ref'.string ≠ ref.string := fun hname => href (TableRef.string_inj hplain' hplain hname)
      rw [StateMap.write, record, AList.lookup_insert_ne hname, Function.update_of_ne href]
      exact hr.row ref' hplain'
  · rcases (AList.mem_insert store).mp hname with rfl | hname
    · exact ⟨ref, hplain, rfl⟩
    · exact hr.named name hname

theorem Rows.writes (hr : Rows store saved) {writes : List (TableRef × TableState)} (hplain : ∀ write ∈ writes, write.1.Plain) :
    Rows (writes.foldl StateMap.write store) (writes.foldl record saved) := by
  induction writes generalizing store saved with
  | nil => exact hr
  | cons write writes ih =>
    exact ih (hr.write (hplain write (by simp))) fun write' hwrite' => hplain write' (by simp [hwrite'])

theorem Rows.lookup (hr : Rows store saved) {name : String} {ts : TableState} :
    store.lookup name = some ts ↔ ∃ ref : TableRef, ref.string = name ∧ saved ref = some ts := by
  constructor
  · intro hts
    obtain ⟨ref, hplain, rfl⟩ := hr.named name (mem_of_lookup hts)
    exact ⟨ref, rfl, (hr.row ref hplain).symm.trans hts⟩
  · rintro ⟨ref, rfl, hsaved⟩
    exact (hr.row ref (hr.plain ref ts hsaved)).trans hsaved

end Rows

/-! ## `Start` -/

/-- A row that `Start` goes on with. -/
def Coordinator.Resumes (c : Coordinator V) (ref : TableRef) (row : Option TableState) : Prop :=
  (∃ ts, row = some ts ∧ ts.done = false) ∧ c.isExcluded ref = false ∧ c.wanted ref = true

theorem mem_startTable_queue (c : Coordinator V) (name : String) (ref : TableRef) : ref ∈ (c.startTable name).queue ↔
    ref ∈ c.queue ∨ splitTableName name = some ref ∧ c.Resumes ref (c.state.lookup name) := by
  unfold Coordinator.startTable Coordinator.Resumes
  split
  · rename_i ref' ts hsplit hlookup
    rw [hsplit, hlookup]
    split
    · rename_i hdone
      simp [hdone]
    · rename_i hdone
      split
      · rename_i hskip
        refine ⟨.inl, ?_⟩
        rintro (hmem | ⟨href, -, hexcluded, hwanted⟩)
        · exact hmem
        · cases href
          simp [hexcluded, hwanted] at hskip
      · rename_i hresume
        rw [not_or, not_not, Bool.not_eq_true] at hresume
        rw [Bool.not_eq_true] at hdone
        have hqueue : ((c.enqueueLocked ref').setStatus ref' fun s => { s with rowsCopied := ts.rowsCopied }).queue = c.queue ++ [ref'] :=
          (c.enqueueLocked_tables ref').1
        rw [hqueue, List.mem_append, List.mem_singleton]
        refine or_congr_right ⟨?_, fun h => (Option.some.inj h.1).symm⟩
        rintro rfl
        exact ⟨rfl, ⟨ts, rfl, hdone⟩, hresume⟩
  · rename_i hnone
    refine ⟨.inl, ?_⟩
    rintro (hmem | ⟨hsplit, ⟨ts, hlookup, -⟩, -⟩)
    · exact hmem
    · exact absurd hlookup (hnone ref ts hsplit)

theorem mem_startTables_queue (names : List String) (c : Coordinator V) (ref : TableRef) :
    ref ∈ (names.foldl Coordinator.startTable c).queue ↔
      ref ∈ c.queue ∨ ∃ name ∈ names, splitTableName name = some ref ∧ c.Resumes ref (c.state.lookup name) := by
  induction names generalizing c with
  | nil => simp
  | cons name names ih =>
    -- neither the loaded state nor the configuration changes on the way
    have hresumes : ∀ row, (c.startTable name).Resumes ref row ↔ c.Resumes ref row := by
      intro row
      simp only [Coordinator.Resumes, Coordinator.isExcluded, Coordinator.wanted, (c.startTable_chunks name).cfg]
    rw [List.foldl_cons, ih, mem_startTable_queue, (c.startTable_tables name).1]
    simp only [hresumes, List.mem_cons, exists_eq_or_imp, or_assoc]

/-- `Start` queues the plain tables whose rows it goes on with. -/
theorem mem_startNode_queue (cfg : Config) (instanceID : String) {store : StateMap} {names : List String}
    (hnames : names.Perm store.keys) (ref : TableRef) :
    ref ∈ (startNode cfg instanceID store names true : Node V).coordinator.queue ↔
      ref.Plain ∧ (startNode cfg instanceID store names true : Node V).coordinator.Resumes ref (store.lookup ref.string) := by
  have hresumes : ∀ row, (startNode cfg instanceID store names true : Node V).coordinator.Resumes ref row ↔
      Coordinator.Resumes (newCoordinator cfg instanceID : Coordinator V) ref row := by
    intro row
    simp only [Coordinator.Resumes, Coordinator.isExcluded, Coordinator.wanted,
      startNode_cfg cfg instanceID store names true]
  rw [hresumes]
  refine (mem_startTables_queue names { (newCoordinator cfg instanceID : Coordinator V) with state := store } ref).trans ?_
  constructor
  · rintro (hmem | ⟨name, _, hsplit, hrow⟩)
    · cases hmem
    · obtain ⟨hplain, rfl⟩ := splitTableName_spec hsplit
      exact ⟨hplain, hrow⟩
  · rintro ⟨hplain, hrow⟩
    obtain ⟨ts, hts, -⟩ := hrow.1
    have hkey : ref.string ∈ store.keys := AList.mem_keys.mp (mem_of_lookup hts)
    exact .inr ⟨ref.string, hnames.mem_iff.mpr hkey, (splitTableName_string ref).mpr hplain, hrow⟩

/-! ## Every run of the nodes -/

/-- The nodes, and the progress saved for each table. -/
structure Recorded (N V : Type) where
  world : World N V := {}
  saved : TableRef → Option TableState := fun _ => none

namespace Recorded

variable {N : Type} [DecidableEq N] [ToString V] {t t' : Recorded N V}

def step (t : Recorded N V) (a : WorldAct N V) : Option (Recorded N V) :=
  (t.world.step a).map fun world => { world, saved := (t.world.writes a).foldl record t.saved }

structure Ok (t : Recorded N V) : Prop where
  nodes : ∀ n node, t.world.nodes n = some node → node.Plain
  rows : Rows t.world.shared.store t.saved

theorem Ok.step (ht : t.Ok) {a : WorldAct N V} (ha : a.Plain) (hstep : t.step a = some t') : t'.Ok := by
  obtain ⟨world, hworld, rfl⟩ := Option.map_eq_some_iff.mp hstep
  constructor
  · refine World.step_nodes hworld ht.nodes (fun cfg instanceID names loaded _ => plain_start cfg instanceID _ names loaded) ?_
    rintro n b node node' rfl hn hnode
    exact hn.step (fun r kind tables heq => by subst heq; exact ha) hnode
  · have hplain : ∀ write ∈ t.world.writes a, write.1.Plain := by
      intro write hwrite
      cases World.steps_of_step hworld with
      | node hn =>
        simp only [World.writes, hn, Option.map_some, Option.getD_some] at hwrite
        exact (ht.nodes _ _ hn).writes write hwrite
      | _ => cases hwrite
    rw [World.step_writes hworld]
    exact ht.rows.writes hplain

theorem ok_of_reaches (ht : Reaches step (fun _ a => a.Plain) ({} : Recorded N V) t) : t.Ok :=
  ht.invariant (fun _ _ _ hok ha hstep => hok.step ha hstep) ⟨fun _ _ hn => (by cases hn), rows_empty⟩

end Recorded

/-- **A name says which table it is of**, if and only if the schema has no dot.
In every run of the nodes in which only such tables are asked for, the rows of
the state table are those of the tables progress was saved for, no two tables
share one, and a `Start` that can load them resumes the tables whose progress is
not done, each from its own. -/
theorem names_unambiguous {N : Type} [DecidableEq N] [ToString V] {t : Recorded N V}
    (ht : Reaches Recorded.step (fun _ a => a.Plain) {} t) :
    (∀ ref ref' : TableRef, ref.Plain → ref'.Plain → ref ≠ ref' → ref.string ≠ ref'.string) ∧
    (∀ ref : TableRef, splitTableName ref.string = some ref ↔ ref.Plain) ∧
    (∀ ref ref', t.saved ref ≠ none → t.saved ref' ≠ none → ref ≠ ref' → ref.string ≠ ref'.string) ∧
    (∀ name ts, t.world.shared.store.lookup name = some ts ↔ ∃ ref : TableRef, ref.string = name ∧ t.saved ref = some ts) ∧
    ∀ n cfg instanceID names t', t.step (.boot n cfg instanceID names true) = some t' → ∃ node, t'.world.nodes n = some node ∧
      (∀ ref, ref ∈ node.coordinator.queue ↔ node.coordinator.Resumes ref (t.saved ref)) ∧
      ∀ ref ∈ node.coordinator.queue, node.coordinator.state.lookup ref.string = t.saved ref := by
  have hok := Recorded.ok_of_reaches ht
  have hplain : ∀ ref, t.saved ref ≠ none → ref.Plain := by
    intro ref href
    obtain ⟨ts, hts⟩ := Option.ne_none_iff_exists'.mp href
    exact hok.rows.plain ref ts hts
  refine ⟨fun ref ref' h h' hne heq => hne (TableRef.string_inj h h' heq), splitTableName_string,
    fun ref ref' h h' hne heq => hne (TableRef.string_inj (hplain ref h) (hplain ref' h') heq),
    fun name ts => hok.rows.lookup, fun n cfg instanceID names t' hstep => ?_⟩
  obtain ⟨world, hworld, rfl⟩ := Option.map_eq_some_iff.mp hstep
  cases World.steps_of_step hworld with
  | boot _ hnames =>
    have hqueue := mem_startNode_queue (V := V) cfg instanceID hnames
    have hstate : (startNode cfg instanceID t.world.shared.store names true : Node V).coordinator.state = t.world.shared.store :=
      (startTables_tables names { (newCoordinator cfg instanceID : Coordinator V) with state := t.world.shared.store }
        (by simp [newCoordinator])).1
    refine ⟨_, Function.update_self .., fun ref => (hqueue ref).trans ⟨?_, fun hresumes => ?_⟩, fun ref href => ?_⟩
    · rintro ⟨href, hresumes⟩
      rwa [hok.rows.row ref href] at hresumes
    · obtain ⟨ts, hts, -⟩ := hresumes.1
      have href : ref.Plain := hok.rows.plain ref ts hts
      exact ⟨href, by rwa [hok.rows.row ref href]⟩
    · rw [hstate]
      exact hok.rows.row ref ((hqueue ref).mp href).1

/-! ### A restart with a table that is pending -/

def bootFor (names : List String) : WorldAct Unit ℕ := .boot () { slotName := "gtc", chunkSize := 10, lanes := 1 } "7f3a" names true

/-- A table is asked for and persisted as pending, and the node crashes. -/
def pendingCrash (ref : TableRef) : List (WorldAct Unit ℕ) :=
  [bootFor [], .node () (.request 0 .enqueueTable [ref]), .node () (.mark 0 true), .crash ()]

theorem names_unambiguous_users : ∃ (t t' : Recorded Unit ℕ) (node : Node ℕ), t.saved users = some {} ∧
    t.step (bootFor ["public.users"]) = some t' ∧ t'.world.nodes () = some node ∧ users ∈ node.coordinator.queue ∧
    node.coordinator.state.lookup users.string = some {} := by
  have hrun : (runSteps Recorded.step ({} : Recorded Unit ℕ) (pendingCrash users)).isSome = true := by decide +kernel
  obtain ⟨t, ht⟩ := Option.isSome_iff_exists.mp hrun
  have hsaved : t.saved users = some {} := runSteps_observe (f := fun t => t.saved users) ht (by decide +kernel)
  have hboot : (t.step (bootFor ["public.users"])).isSome = true :=
    runSteps_observe (f := fun t => (t.step (bootFor ["public.users"])).isSome) ht (by decide +kernel)
  obtain ⟨t', ht'⟩ := Option.isSome_iff_exists.mp hboot
  have hreaches : Reaches Recorded.step (fun _ a => a.Plain) {} t := by
    refine reaches_of_runSteps_ok (fun a ha _ => ?_) ht
    simp only [pendingCrash, List.mem_cons, List.not_mem_nil, or_false] at ha
    rcases ha with rfl | rfl | rfl | rfl
    case inr.inl =>
      intro ref href
      rw [List.mem_singleton.mp href]
      exact users_plain
    all_goals trivial
  obtain ⟨-, -, -, -, hstart⟩ := names_unambiguous hreaches
  obtain ⟨node, hnode, hqueue, hstate⟩ := hstart () _ _ _ t' ht'
  have hcfg : ((t.step (bootFor ["public.users"])).bind fun t' => (t'.world.nodes ()).map fun node =>
      (node.coordinator.isExcluded users, node.coordinator.wanted users)) = some (false, true) :=
    runSteps_observe (f := fun t => (t.step (bootFor ["public.users"])).bind fun t' => (t'.world.nodes ()).map fun node =>
      (node.coordinator.isExcluded users, node.coordinator.wanted users)) ht (by decide +kernel)
  rw [ht', Option.bind_some, hnode, Option.map_some, Option.some.injEq, Prod.mk.injEq] at hcfg
  have hmem := (hqueue users).mpr ⟨⟨{}, hsaved, rfl⟩, hcfg⟩
  exact ⟨t, t', node, hsaved, ht', hnode, hmem, (hstate users hmem).trans hsaved⟩

/-! ### Two tables of one name -/

def dotted : TableRef := ⟨"a.b", "c"⟩

def undotted : TableRef := ⟨"a", "b.c"⟩

/-- `"a.b"."c"` is persisted under the name of `"a"."b.c"`: after a crash that
table is backfilled in its place. -/
theorem names_ambiguous : dotted ≠ undotted ∧ dotted.string = undotted.string ∧
    splitTableName dotted.string = some undotted ∧
    ∃ t : Recorded Unit ℕ, runSteps Recorded.step {} (pendingCrash dotted ++ [bootFor ["a.b.c"]]) = some t ∧
      t.saved dotted = some {} ∧ t.saved undotted = none ∧
      t.world.shared.store.lookup undotted.string = some {} ∧
      (t.world.nodes ()).map (fun node => node.coordinator.queue) = some [undotted] := by
  refine ⟨by decide, by decide +kernel, by decide +kernel, ?_⟩
  have hrun : (runSteps Recorded.step ({} : Recorded Unit ℕ) (pendingCrash dotted ++ [bootFor ["a.b.c"]])).isSome = true := by
    decide +kernel
  obtain ⟨t, ht⟩ := Option.isSome_iff_exists.mp hrun
  exact ⟨t, ht, runSteps_observe (f := fun t => t.saved dotted) ht (by decide +kernel),
    runSteps_observe (f := fun t => t.saved undotted) ht (by decide +kernel),
    runSteps_observe (f := fun t => t.world.shared.store.lookup undotted.string) ht (by decide +kernel),
    runSteps_observe (f := fun t => (t.world.nodes ()).map fun node => node.coordinator.queue) ht (by decide +kernel)⟩

end Gtc.Backfill
