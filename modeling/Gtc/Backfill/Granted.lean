/-
What a granted replay does: the run that its queue entry starts re-reads the
table from the beginning, if the state table says so when the entry is made.

The reset is a database write outside the lock, and its error is only logged,
so a replay can be granted while the table's row still holds a cursor or a
completion. The run reloads that row, and the row wins. `Tracked` follows the
entries that replays make, through the queue and into the lanes, and records
what each run does first.
-/
import Gtc.Backfill.Schedule

namespace Gtc.Backfill

open Lib

variable {V : Type}

/-! ## Rows that say nothing -/

/-- A row a run starts over from: there is none, or it holds no progress. -/
def Blank (row : Option TableState) : Prop := ∀ ts ∈ row, ts.done = false ∧ ts.cursor = []

theorem blank_none : Blank none := fun _ h => by cases h

theorem Blank.getD {row : Option TableState} (h : Blank row) : (row.getD {}).cursor = [] := by
  cases row with
  | none => rfl
  | some ts => exact (h ts rfl).2

theorem RunPoint.state?_of_over {point : RunPoint} (h : point.over = true) : point.state? = none := by
  cases point <;> first | rfl | cases h

section Rows

variable [ToString V] {w w' : Shared V} {node node' : Node V} {l : ℕ}

/-- A row stays blank, in the state table and in the cache, while no lane that
runs its table takes a step. -/
theorem Node.step_blank {a : NodeAct V} (hstep : node.step w a = some (w', node')) {name : String}
    (hfree : ∀ l run, a.moves l → node.lanes l = .running run → run.ref.string = name → run.point.over = true) :
    (Blank (w.store.lookup name) → Blank (w'.store.lookup name)) ∧
      (Blank (node.coordinator.state.lookup name) → Blank (node'.coordinator.state.lookup name)) := by
  constructor
  · intro hblank
    rcases Node.step_shared hstep with ⟨-, hstore⟩ | ⟨l, run, ts, written, rfl, hrun, hpoint, -, hstore⟩ |
      ⟨r, written, request, -, -, rfl⟩
    · rwa [hstore]
    · have hname : name ≠ run.ref.string := by
        rintro rfl
        have hover := hfree l run rfl hrun rfl
        rw [hpoint] at hover
        cases hover
      rwa [hstore, AList.lookup_insert_ne hname]
    · simp only [Shared.markPending, if_true, lookup_markPending]
      split
      · intro ts hts
        cases hts
        exact ⟨rfl, rfl⟩
      · exact hblank
  · intro hblank ts hts
    rcases Node.step_state hstep name ts hts with hold | ⟨l, run, hmoves, hrun, hname, hpoint⟩
    · exact hblank ts hold
    · rw [RunPoint.state?_of_over (hfree l run hmoves hrun hname.symm)] at hpoint
      cases hpoint

end Rows

/-! ## Names that say which table -/

/-- No table of the node has a dot in its schema. -/
structure Node.Plain (node : Node V) : Prop where
  queue : ∀ ref ∈ node.coordinator.queue, ref.Plain
  held : ∀ l ref, (node.lanes l).table? = some ref → ref.Plain
  requests : ∀ r request, node.requests r = some request → ∀ ref ∈ request.tables, ref.Plain

section Plain

variable [ToString V] {w w' : Shared V} {node node' : Node V}

omit [ToString V] in
theorem Node.Plain.schedules (hn : node.Plain) (hs : Schedules node node') :
    (∀ ref ∈ node'.coordinator.queue, ref.Plain) ∧ ∀ l ref, (node'.lanes l).table? = some ref → ref.Plain := by
  cases hs with
  | same hqueue _ hlanes =>
    refine ⟨by rw [hqueue]; exact hn.queue, fun l ref href => hn.held l ref ?_⟩
    rwa [hlanes] at href
  | pop l ref _ hqueue _ hlanes =>
    have hall := hn.queue
    rw [hqueue] at hall
    refine ⟨fun ref' href' => hall ref' (by simp [href']), fun j ref' href' => ?_⟩
    rw [hlanes] at href'
    split at href'
    · cases href'
      exact hall ref (by simp)
    · exact hn.held j ref' href'
  | finish l ref _ hqueue _ hlanes =>
    refine ⟨by rw [hqueue]; exact hn.queue, fun j ref' href' => hn.held j ref' ?_⟩
    rw [hlanes] at href'
    split at href'
    · cases href'
    · exact href'
  | grant r request hrequest _ hcoordinator hlanes =>
    refine ⟨fun ref href => ?_, fun l ref href => hn.held l ref (by rwa [hlanes] at href)⟩
    rw [hcoordinator] at href
    rcases grant_queue _ _ _ ref href with href | href
    · exact hn.queue ref href
    · exact hn.requests r request hrequest ref href

theorem Node.Plain.step (hn : node.Plain) {a : NodeAct V} (ha : ∀ r kind tables, a = .request r kind tables → ∀ ref ∈ tables, ref.Plain)
    (hstep : node.step w a = some (w', node')) : node'.Plain where
  queue := (hn.schedules (Node.step_schedules hstep)).1
  held := (hn.schedules (Node.step_schedules hstep)).2
  requests r request hrequest ref href := by
    rcases Node.step_requests hstep hrequest with hold | ⟨request', written, -, hold, rfl⟩ | ⟨kind, tables, rfl, rfl⟩
    · exact hn.requests r request hold ref href
    · exact hn.requests r request' hold ref href
    · exact ha r kind tables rfl ref (List.mem_of_mem_filter href)

omit [ToString V] in
theorem plain_start (cfg : Config) (instanceID : String) (store : StateMap) (names : List String) (loaded : Bool) :
    (startNode cfg instanceID store names loaded : Node V).Plain := by
  refine ⟨fun ref href => ?_, fun l ref href => ?_, fun r request hrequest => by cases hrequest⟩
  · cases loaded with
    | false => cases href
    | true =>
      exact (startTables_tables names { (newCoordinator cfg instanceID : Coordinator V) with state := store }
        (by simp [newCoordinator])).2 ref href
  · simp [startNode_table?] at href

end Plain

/-! ## Following a replay -/

/-- What a run that a replay started did first: the cursor of its first
`startChunk`, or none if it found the table completed. -/
structure Replayed where
  table : TableRef
  cursor : Option (List String)
deriving DecidableEq, Repr

/-- A node and its state table, with the replays that were granted. -/
structure Tracked (V : Type) where
  shared : Shared V
  node : Node V
  /-- The entries of the queue that replays made. -/
  granted : List TableRef := []
  /-- The lanes whose run such an entry started, until the run's first chunk. -/
  replaying : List ℕ := []
  replayed : List Replayed := []

inductive TrackedAct (V : Type) where
  | commit (events : List (CDCEvent V))
  | foreign (content : Option WatermarkPayload)
  | node (a : NodeAct V)

namespace Tracked

/-- `Start`, on whatever the database holds. -/
def start (cfg : Config) (instanceID : String) (history : History V) (store : StateMap) (names : List String) (loaded : Bool) :
    Tracked V where
  shared := { history, store }
  node := startNode cfg instanceID store names loaded

/-- The entries of the queue that the step adds for a replay: `EnqueueTable`
returns nil, or `ReplayAll` counts the table. -/
def grants (t : Tracked V) (a : NodeAct V) (node : Node V) : List TableRef :=
  match a with
  | .grant r =>
    match t.node.requests r with
    | some request =>
      if request.kind = .enqueueAll then [] else node.coordinator.queue.drop t.node.coordinator.queue.length
    | none => []
  | _ => []

/-- What a lane's step means for the run it is in. -/
def noteLane (t : Tracked V) (l : ℕ) (run : Run) : LaneAct V → Tracked V
  | .pop =>
    if run.ref ∈ t.granted then
      { t with granted := t.granted.filter (· ≠ run.ref), replaying := l :: t.replaying }
    else t
  | .register =>
    if l ∈ t.replaying then
      { t with
        replaying := t.replaying.filter (· ≠ l)
        replayed := t.replayed ++ [{ table := run.ref, cursor := some run.next }] }
    else t
  | .already =>
    if l ∈ t.replaying then
      { t with
        replaying := t.replaying.filter (· ≠ l)
        replayed := t.replayed ++ [{ table := run.ref, cursor := none }] }
    else t
  | .returned => { t with replaying := t.replaying.filter (· ≠ l) }
  | _ => t

def note (t : Tracked V) (a : NodeAct V) (shared : Shared V) (node : Node V) : Tracked V :=
  let t' := { t with shared, node, granted := t.granted ++ t.grants a node }
  match a with
  | .lane l a =>
    -- a pop says which table it is about in the lane's new run
    match t.node.lanes l, node.lanes l with
    | .running run, _ => t'.noteLane l run a
    | _, .running run => t'.noteLane l run a
    | _, _ => t'
  | _ => t'

def step [ToString V] (t : Tracked V) : TrackedAct V → Option (Tracked V)
  | .commit events => some { t with shared := { t.shared with history := t.shared.history.commit events } }
  | .foreign content => some { t with shared := { t.shared with history := t.shared.history.foreign content } }
  | .node a => (t.node.step t.shared a).map fun (shared, node) => t.note a shared node

/-- The tables of the requests are plain, and when a replay is granted, the
state table holds no progress of what is queued: its `MarkPending` was written,
and no run has saved progress since. -/
def Reset (t : Tracked V) : TrackedAct V → Prop
  | .node (.request _ _ tables) => ∀ ref ∈ tables, ref.Plain
  | .node (.grant r) => ∀ request, t.node.requests r = some request → request.kind ≠ .enqueueAll →
    ∀ ref ∈ request.tables, t.node.coordinator.busy ref = false → Blank (t.shared.store.lookup ref.string)
  | _ => True

end Tracked

/-! ## What the tracked replays hold -/

/-- A run that starts over, up to its first chunk. -/
def Run.Opening (store state : StateMap) (run : Run) : Prop :=
  match run.point with
  | .primaryKey | .skip | .load => Blank (store.lookup run.ref.string) ∧ Blank (state.lookup run.ref.string)
  | .loaded answer => Blank answer.join ∧ Blank (state.lookup run.ref.string)
  | .resume => Blank (state.lookup run.ref.string)
  | .announce | .fill | .waitForStream | .register => run.next = [] ∧ run.window = [] ∧ run.exhausted = false
  | .leave _ | .returned _ => True
  | _ => False

theorem Run.Opening.mono {store store' state state' : StateMap} {run : Run} (ho : run.Opening store state)
    (hstore : Blank (store.lookup run.ref.string) → Blank (store'.lookup run.ref.string))
    (hstate : Blank (state.lookup run.ref.string) → Blank (state'.lookup run.ref.string)) : run.Opening store' state' := by
  unfold Run.Opening at ho ⊢
  split at ho
  · exact ⟨hstore ho.1, hstate ho.2⟩
  · exact ⟨hstore ho.1, hstate ho.2⟩
  · exact ⟨hstore ho.1, hstate ho.2⟩
  · exact ⟨ho.1, hstate ho.2⟩
  · exact hstate ho
  all_goals exact ho

theorem Run.Opening.not_over {store state : StateMap} {run : Run} (ho : run.Opening store state) : run.point.over = false := by
  cases hpoint : run.point with
  | failed err =>
    simp only [Run.Opening, hpoint] at ho
  | _ => rfl

section Opening

variable [ToString V] {w w' : Shared V} {node node' : Node V} {l : ℕ}

/-- Its own steps keep it so, until it calls `startChunk` or ends; it does not
find the table completed. -/
theorem Run.Opening.step {run : Run} {a : LaneAct V} (ho : run.Opening w.store node.coordinator.state)
    (hstep : Node.RunSteps w node l run a w' node') :
    a = .returned ∨ (a = .register ∧ run.next = []) ∨ a ≠ .already ∧ a ≠ .register ∧
      ∃ run', node'.lanes l = .running run' ∧ run'.Opening w'.store node'.coordinator.state := by
  cases hstep with
  | @primaryKey answer hpoint =>
    simp only [Run.Opening, hpoint] at ho
    refine .inr (.inr ⟨by simp, by simp, _, Node.setRun_lane .., ?_⟩)
    cases answer with
    | error err => exact trivial
    | ok pkCols =>
      by_cases hpk : pkCols = []
      · simp only [Run.Opening, Run.primaryKey, if_pos hpk]
        exact ho
      · simp only [Run.Opening, Run.primaryKey, if_neg hpk]
        exact ho
  | skip hpoint => exact .inr (.inr ⟨by simp, by simp, _, Node.setRun_lane .., trivial⟩)
  | @load ok hpoint =>
    simp only [Run.Opening, hpoint] at ho
    refine .inr (.inr ⟨by simp, by simp, _, Node.setRun_lane .., ?_, ho.2⟩)
    cases ok with
    | false => exact blank_none
    | true => exact ho.1
  | reloadFailed hpoint =>
    simp only [Run.Opening, hpoint] at ho
    exact .inr (.inr ⟨by simp, by simp, _, Node.setRun_lane .., ho.2⟩)
  | notFound hpoint =>
    refine .inr (.inr ⟨by simp, by simp, _, Node.setRun_lane .., ?_⟩)
    intro ts hts
    simp [Node.coordinator, Node.setRun, Node.setLane, Node.keep, Coordinator.forget, Run.reloaded] at hts
  | @found ts hpoint =>
    simp only [Run.Opening, hpoint] at ho
    obtain ⟨hdone, hcursor⟩ := ho.1 ts rfl
    refine .inr (.inr ⟨by simp, by simp, _, Node.setRun_lane .., ?_⟩)
    simp only [Run.Opening, Run.reloaded, hdone]
    intro ts' hts'
    simp only [Node.coordinator, Node.setRun, Node.setLane, Node.keep, Coordinator.setState, AList.lookup_insert,
      Option.mem_some_iff] at hts'
    subst hts'
    exact ⟨hdone, hcursor⟩
  | resume hpoint =>
    simp only [Run.Opening, hpoint] at ho
    exact .inr (.inr ⟨by simp, by simp, _, Node.setRun_lane .., ho.getD, rfl, rfl⟩)
  | announce hpoint =>
    simp only [Run.Opening, hpoint] at ho
    exact .inr (.inr ⟨by simp, by simp, _, Node.setRun_lane .., ho⟩)
  | fill hpoint =>
    simp only [Run.Opening, hpoint] at ho
    refine .inr (.inr ⟨by simp, by simp, _, Node.setRun_lane .., ?_⟩)
    -- the window is empty, so there is room for a chunk
    simp only [Run.Opening, Run.fill, ho.2.1, ho.2.2, ho.1, pipelineDepth]
    simp
  | waitForStream hpoint =>
    simp only [Run.Opening, hpoint] at ho
    exact .inr (.inr ⟨by simp, by simp, _, Node.setRun_lane .., ho⟩)
  | register hpoint =>
    simp only [Run.Opening, hpoint] at ho
    exact .inr (.inl ⟨rfl, ho.1⟩)
  | cancel => exact .inr (.inr ⟨by simp, by simp, _, Node.setRun_lane .., trivial⟩)
  | leave => exact .inr (.inr ⟨by simp, by simp, _, Node.setRun_lane .., trivial⟩)
  | finished | returned => exact .inl rfl
  | already hpoint | emitted hpoint | emitFailed hpoint | selected hpoint | selectFailed hpoint | publish hpoint | started hpoint
  | fail hpoint | restart hpoint | done hpoint | record hpoint | save hpoint | completed hpoint | progressed hpoint
  | delay hpoint | stopped hpoint | failed hpoint =>
    simp only [Run.Opening, hpoint] at ho

end Opening

/-- What a grant adds to the queue was not scheduled, and a replay forgets its
cached progress. -/
theorem grant_added (kind : RequestKind) (tables : List TableRef) (c : Coordinator V) :
    ∃ added, (tables.foldl (Coordinator.grantTable kind) c).queue = c.queue ++ added ∧ ∀ ref ∈ added, ref ∈ tables ∧
      c.busy ref = false ∧ (kind ≠ .enqueueAll →
        (tables.foldl (Coordinator.grantTable kind) c).state.lookup ref.string = none) := by
  induction tables generalizing c with
  | nil => exact ⟨[], by simp, by simp⟩
  | cons ref tables ih =>
    obtain ⟨added, hqueue, hadded⟩ := ih (Coordinator.grantTable kind c ref)
    obtain ⟨hrunning, hone⟩ := Coordinator.grantTable_schedule kind c ref
    rw [List.foldl_cons]
    by_cases hbusy : c.busy ref = true
    · have hsame : Coordinator.grantTable kind c ref = c := by rw [Coordinator.grantTable, if_pos hbusy]
      rw [hsame] at hqueue hadded ⊢
      exact ⟨added, hqueue, fun ref' href' => ⟨by simp [(hadded ref' href').1], (hadded ref' href').2⟩⟩
    · rw [if_neg hbusy] at hone
      rw [hone, List.append_assoc, List.singleton_append] at hqueue
      refine ⟨ref :: added, hqueue, fun ref' href' => ?_⟩
      rcases List.mem_cons.mp href' with rfl | href'
      · refine ⟨by simp, by simpa using hbusy, fun hkind => ?_⟩
        have hforgotten : (Coordinator.grantTable kind c ref').state.lookup ref'.string = none := by
          rw [Coordinator.grantTable, if_neg hbusy, if_neg hkind, (Coordinator.enqueueLocked_tables _ _).2]
          simp [Coordinator.forget]
        cases hts : (tables.foldl (Coordinator.grantTable kind) (Coordinator.grantTable kind c ref')).state.lookup
            ref'.string with
        | none => rfl
        | some ts =>
          rw [grant_state kind tables _ _ ts hts] at hforgotten
          cases hforgotten
      · obtain ⟨htables, hfree, hstate⟩ := hadded ref' href'
        refine ⟨by simp [htables], ?_, hstate⟩
        rw [Bool.eq_false_iff] at hfree ⊢
        intro hbusy'
        refine hfree ?_
        simp only [Coordinator.busy, Bool.or_eq_true, List.contains_iff_mem, hrunning, hone, List.mem_append] at hbusy' ⊢
        rcases hbusy' with hmem | hmem
        · exact .inl hmem
        · exact .inr (.inl hmem)

namespace Tracked

/-- Each granted replay starts over: in the queue, in its lane, and in what its
run did first. -/
structure Ok (t : Tracked V) : Prop where
  scheduled : Scheduled t.node
  plain : t.node.Plain
  granted : ∀ ref ∈ t.granted, ref ∈ t.node.coordinator.queue ∧ Blank (t.shared.store.lookup ref.string) ∧
    Blank (t.node.coordinator.state.lookup ref.string)
  replaying : ∀ l ∈ t.replaying, ∃ run, t.node.lanes l = .running run ∧
    run.Opening t.shared.store t.node.coordinator.state
  replayed : ∀ r ∈ t.replayed, r.cursor = some []

variable {t : Tracked V}

/-- The run of a lane is of the table it holds. -/
theorem Ok.held (ht : t.Ok) {l : ℕ} {run : Run} (hrun : t.node.lanes l = .running run) (hover : run.point.over = false) :
    (t.node.lanes l).table? = some run.ref ∧ run.ref.Plain := by
  have htable : (t.node.lanes l).table? = some run.ref := by rw [hrun, Lane.table?_running hover]
  exact ⟨htable, ht.plain.held l run.ref htable⟩

/-- No lane runs a table that is queued. -/
theorem Ok.free_queued (ht : t.Ok) {ref : TableRef} (href : ref ∈ t.node.coordinator.queue) {l : ℕ} {run : Run}
    (hrun : t.node.lanes l = .running run) (hname : run.ref.string = ref.string) : run.point.over = true := by
  by_contra hover
  obtain ⟨htable, hplain⟩ := ht.held hrun (by simpa using hover)
  rw [TableRef.string_inj hplain (ht.plain.queue ref href) hname] at htable
  exact ht.scheduled.apart ref href (ht.scheduled.held l ref htable)

/-- No other lane runs the table of a lane. -/
theorem Ok.free_lane (ht : t.Ok) {j : ℕ} {run' : Run} (hrun' : t.node.lanes j = .running run')
    (hover' : run'.point.over = false) {l : ℕ} (hl : l ≠ j) {run : Run} (hrun : t.node.lanes l = .running run)
    (hname : run.ref.string = run'.ref.string) : run.point.over = true := by
  by_contra hover
  obtain ⟨htable, hplain⟩ := ht.held hrun (by simpa using hover)
  obtain ⟨htable', hplain'⟩ := ht.held hrun' hover'
  rw [TableRef.string_inj hplain hplain' hname] at htable
  exact hl (ht.scheduled.once l j run'.ref htable htable')

/-- What a step of a run changes. -/
theorem noteLane_spec (t : Tracked V) (l : ℕ) (run : Run) {a : LaneAct V} (ha : a ≠ .pop) :
    (t.noteLane l run a).shared = t.shared ∧ (t.noteLane l run a).node = t.node ∧ (t.noteLane l run a).granted = t.granted ∧
      (∀ j ∈ (t.noteLane l run a).replaying, j ∈ t.replaying ∧ (a = .register ∨ a = .already ∨ a = .returned → j ≠ l)) ∧
      ∀ r ∈ (t.noteLane l run a).replayed, r ∈ t.replayed ∨
        l ∈ t.replaying ∧ (a = .register ∧ r.cursor = some run.next ∨ a = .already) := by
  unfold noteLane
  split
  · exact absurd rfl ha
  · split
    · refine ⟨rfl, rfl, rfl, fun j hj => by simpa using hj, fun r hr => ?_⟩
      rename_i hl
      rcases List.mem_append.mp hr with hr | hr
      · exact .inl hr
      · exact .inr ⟨hl, .inl ⟨rfl, by rw [List.mem_singleton.mp hr]⟩⟩
    · rename_i hl
      exact ⟨rfl, rfl, rfl, fun j hj => ⟨hj, fun _ heq => hl (heq ▸ hj)⟩, fun r hr => .inl hr⟩
  · split
    · refine ⟨rfl, rfl, rfl, fun j hj => by simpa using hj, fun r hr => ?_⟩
      rename_i hl
      rcases List.mem_append.mp hr with hr | hr
      · exact .inl hr
      · exact .inr ⟨hl, .inr rfl⟩
    · rename_i hl
      exact ⟨rfl, rfl, rfl, fun j hj => ⟨hj, fun _ heq => hl (heq ▸ hj)⟩, fun r hr => .inl hr⟩
  · exact ⟨rfl, rfl, rfl, fun j hj => by simpa using hj, fun r hr => .inl hr⟩
  · rename_i hregister halready hreturned
    refine ⟨rfl, rfl, rfl, fun j hj => ⟨hj, ?_⟩, fun r hr => .inl hr⟩
    rintro (h | h | h)
    · exact absurd h hregister
    · exact absurd h halready
    · exact absurd h hreturned

section Steps

variable [ToString V] {w' : Shared V} {node' : Node V}

/-- The rows of the queued replays stay blank. -/
theorem Ok.granted_blank (ht : t.Ok) {a : NodeAct V} (hstep : t.node.step t.shared a = some (w', node')) {ref : TableRef}
    (href : ref ∈ t.granted) : Blank (w'.store.lookup ref.string) ∧ Blank (node'.coordinator.state.lookup ref.string) := by
  obtain ⟨hqueue, hstore, hstate⟩ := ht.granted ref href
  obtain ⟨hstore', hstate'⟩ := Node.step_blank hstep fun l run _ hrun hname => ht.free_queued hqueue hrun hname
  exact ⟨hstore' hstore, hstate' hstate⟩

/-- The runs of the lanes that take no step stay as they are. -/
theorem Ok.replaying_kept (ht : t.Ok) {a : NodeAct V} (hstep : t.node.step t.shared a = some (w', node')) {j : ℕ}
    (hj : j ∈ t.replaying) (hmoves : ¬ a.moves j) :
    ∃ run, node'.lanes j = .running run ∧ run.Opening w'.store node'.coordinator.state := by
  obtain ⟨run, hrun, ho⟩ := ht.replaying j hj
  obtain ⟨hstore, hstate⟩ := Node.step_blank hstep fun l run' hl hrun' hname =>
    ht.free_lane hrun ho.not_over (fun heq => hmoves (heq ▸ hl)) hrun' hname
  exact ⟨run, by rw [Node.step_lanes hstep hmoves, hrun], ho.mono hstore hstate⟩

/-- What a replay adds to the queue starts over. -/
theorem grants_blank {a : NodeAct V} (ha : t.Reset (.node a)) (hstep : t.node.step t.shared a = some (w', node'))
    {ref : TableRef} (href : ref ∈ t.grants a node') : ref ∈ node'.coordinator.queue ∧
      Blank (w'.store.lookup ref.string) ∧ Blank (node'.coordinator.state.lookup ref.string) := by
  cases Node.steps_of_step hstep with
  | @grant r request hrequest =>
    obtain ⟨added, hqueue, hadded⟩ := grant_added request.kind request.tables t.node.coordinator
    simp only [grants, hrequest, Node.coordinator, Node.setRequest, Node.keep] at href ⊢
    split at href
    · cases href
    · rename_i hkind
      simp only [Node.coordinator] at hqueue
      rw [hqueue, List.drop_left] at href
      obtain ⟨htables, hbusy, hstate⟩ := hadded ref href
      refine ⟨by rw [hqueue]; exact List.mem_append_right _ href, ha request hrequest hkind ref htables hbusy, ?_⟩
      exact (hstate hkind).symm ▸ blank_none
  | _ => simp [grants] at href

/-- A request, its mark or its grant, or a step of the session. -/
theorem Ok.other (ht : t.Ok) {a : NodeAct V} (ha : t.Reset (.node a)) (hlane : ∀ l, ¬ a.moves l)
    (hstep : t.node.step t.shared a = some (w', node')) (hplain : node'.Plain) :
    Ok { t with shared := w', node := node', granted := t.granted ++ t.grants a node' } := by
  refine ⟨ht.scheduled.step hstep, hplain, fun ref href => ?_, fun j hj => ht.replaying_kept hstep hj (hlane j), ht.replayed⟩
  rcases List.mem_append.mp href with href | href
  · refine ⟨?_, ht.granted_blank hstep href⟩
    have hqueue := (ht.granted ref href).1
    cases Node.step_schedules hstep with
    | same heq => rwa [heq]
    | finish l ref' _ heq => rwa [heq]
    | grant r request _ _ hcoordinator =>
      obtain ⟨added, heq, -⟩ := grant_added request.kind request.tables t.node.coordinator
      rw [hcoordinator, heq]
      exact List.mem_append_left _ hqueue
    | pop l ref' hidle _ _ hlanes =>
      have htable := hlanes l
      rw [Node.step_lanes hstep (hlane l), hidle, if_pos rfl] at htable
      cases htable
  · exact grants_blank ha hstep href

/-- A lane that is not in a run: it pops a table, or waits. -/
theorem Ok.idle (ht : t.Ok) {l : ℕ} {a : LaneAct V} (hstep : t.node.step t.shared (.lane l a) = some (w', node'))
    (hplain : node'.Plain) (hidle : ∀ run, t.node.lanes l ≠ .running run) : (t.note (.lane l a) w' node').Ok := by
  have hscheduled := ht.scheduled.step hstep
  have hnot : l ∉ t.replaying := fun hl => by
    obtain ⟨run, hrun, -⟩ := ht.replaying l hl
    exact hidle run hrun
  have hkept : ∀ j ∈ t.replaying, ∃ run, node'.lanes j = .running run ∧ run.Opening w'.store node'.coordinator.state :=
    fun j hj => ht.replaying_kept hstep hj fun hmoves => hnot (hmoves ▸ hj)
  have hblank : ∀ ref ∈ t.granted, Blank (w'.store.lookup ref.string) ∧
      Blank (node'.coordinator.state.lookup ref.string) := fun ref href => ht.granted_blank hstep href
  -- a lane that only waits
  have hwaits : node'.coordinator.queue = t.node.coordinator.queue → (∀ run, node'.lanes l ≠ .running run) →
      (t.note (.lane l a) w' node').Ok := by
    intro hqueue hlane
    have hnote : t.note (.lane l a) w' node' = { t with shared := w', node := node', granted := t.granted ++ [] } := by
      cases hbefore : t.node.lanes l with
      | running run => exact absurd hbefore (hidle run)
      | _ =>
        cases hafter : node'.lanes l with
        | running run => exact absurd hafter (hlane run)
        | _ => simp only [note, grants, hbefore, hafter]
    rw [hnote, List.append_nil]
    exact ⟨hscheduled, hplain, fun ref href => ⟨hqueue ▸ (ht.granted ref href).1, hblank ref href⟩, hkept, ht.replayed⟩
  cases Node.steps_of_laneStep hstep with
  | run hrun => exact absurd hrun (hidle _)
  | sleep | wake | stopped => exact hwaits rfl fun run hrun => by simp [Node.setLane] at hrun
  | @pop _ ref queue hready hqueue =>
    have hrun : ((t.node.keep { t.node.coordinator with
        queue, running := t.node.coordinator.running.insert ref }).setRun l { ref }).lanes l = .running { ref } :=
      Function.update_self _ _ _
    have hmem : ∀ ref' ∈ t.granted, ref' ≠ ref → ref' ∈ queue := fun ref' href' hne => by
      have hold := (ht.granted ref' href').1
      rw [hqueue] at hold
      exact (List.mem_cons.mp hold).resolve_left hne
    simp only [note, grants, hready, hrun, List.append_nil, noteLane]
    split
    · rename_i hgranted
      refine ⟨hscheduled, hplain, fun ref' href' => ?_, fun j hj => ?_, ht.replayed⟩
      · rw [List.mem_filter] at href'
        exact ⟨hmem ref' href'.1 (by simpa using href'.2), hblank ref' href'.1⟩
      · rcases List.mem_cons.mp hj with rfl | hj
        · exact ⟨{ ref }, hrun, hblank ref hgranted⟩
        · exact hkept j hj
    · rename_i hgranted
      refine ⟨hscheduled, hplain, fun ref' href' => ⟨hmem ref' href' ?_, hblank ref' href'⟩, hkept, ht.replayed⟩
      rintro rfl
      exact hgranted href'

/-- A lane in a run. -/
theorem Ok.running (ht : t.Ok) {l : ℕ} {a : LaneAct V} (hstep : t.node.step t.shared (.lane l a) = some (w', node'))
    (hplain : node'.Plain) {run : Run} (hrun : t.node.lanes l = .running run)
    (hsteps : Node.RunSteps t.shared t.node l run a w' node') : (t.note (.lane l a) w' node').Ok := by
  have hnote : t.note (.lane l a) w' node' = noteLane { t with shared := w', node := node', granted := t.granted ++ [] } l run a := by
    simp only [note, hrun, grants]
  have hgranted : ∀ ref ∈ t.granted, ref ∈ node'.coordinator.queue ∧ Blank (w'.store.lookup ref.string) ∧
      Blank (node'.coordinator.state.lookup ref.string) := by
    intro ref href
    rw [hsteps.quiet.2.1]
    exact ⟨(ht.granted ref href).1, ht.granted_blank hstep href⟩
  have hkept : ∀ j ∈ t.replaying, j ≠ l → ∃ run, node'.lanes j = .running run ∧
      run.Opening w'.store node'.coordinator.state := fun j hj hne => ht.replaying_kept hstep hj hne
  have ha : a ≠ .pop := by
    rintro rfl
    cases hsteps
  rw [hnote, List.append_nil]
  obtain ⟨hshared, hnode, hqueued, hlanes, hfirst⟩ := noteLane_spec { t with shared := w', node := node' } l run ha
  have hopen : l ∈ t.replaying → run.Opening t.shared.store t.node.coordinator.state := by
    intro hl
    obtain ⟨run', hrun', ho⟩ := ht.replaying l hl
    rw [hrun] at hrun'
    cases hrun'
    exact ho
  refine ⟨by rw [hnode]; exact ht.scheduled.step hstep, by rw [hnode]; exact hplain, ?_, fun j hj => ?_, fun r hr => ?_⟩
  · rw [hqueued, hnode, hshared]
    exact hgranted
  · rw [hnode, hshared]
    obtain ⟨hj', hends⟩ := hlanes j hj
    by_cases hne : j = l
    · subst hne
      rcases (hopen hj').step hsteps with rfl | ⟨rfl, -⟩ | ⟨-, -, hnext⟩
      · exact absurd rfl (hends (.inr (.inr rfl)))
      · exact absurd rfl (hends (.inl rfl))
      · exact hnext
    · exact hkept j hj' hne
  · rcases hfirst r hr with hr | ⟨hl, ⟨rfl, hcursor⟩ | rfl⟩
    · exact ht.replayed r hr
    · rcases (hopen hl).step hsteps with h | ⟨-, hnext⟩ | ⟨-, h, -⟩
      · cases h
      · rw [hcursor, hnext]
      · exact absurd rfl h
    · rcases (hopen hl).step hsteps with h | ⟨h, -⟩ | ⟨h, -⟩
      · cases h
      · cases h
      · exact absurd rfl h

theorem Ok.step (ht : t.Ok) {a : TrackedAct V} {t' : Tracked V} (ha : t.Reset a) (hstep : t.step a = some t') : t'.Ok := by
  cases a with
  | commit events =>
    cases hstep
    exact ⟨ht.scheduled, ht.plain, ht.granted, ht.replaying, ht.replayed⟩
  | foreign content =>
    cases hstep
    exact ⟨ht.scheduled, ht.plain, ht.granted, ht.replaying, ht.replayed⟩
  | node a =>
    simp only [Tracked.step, Option.map_eq_some_iff] at hstep
    obtain ⟨⟨w', node'⟩, hstep, rfl⟩ := hstep
    have hplain : node'.Plain := ht.plain.step (fun r kind tables heq => by subst heq; exact ha) hstep
    cases a with
    | lane l a =>
      cases hlane : t.node.lanes l with
      | running run =>
        exact ht.running hstep hplain hlane (Node.runSteps_of_laneStep hlane hstep)
      | _ => exact ht.idle hstep hplain (by simp [hlane])
    | _ => exact ht.other ha (by simp [NodeAct.moves]) hstep hplain

end Steps

theorem ok_start (cfg : Config) (instanceID : String) (history : History V) {store : StateMap} {names : List String}
    (hnames : names.Perm store.keys) (loaded : Bool) : (start cfg instanceID history store names loaded).Ok := by
  have hscheduled : Scheduled (startNode cfg instanceID store names loaded : Node V) := scheduled_start cfg instanceID hnames loaded
  exact ⟨hscheduled, plain_start cfg instanceID store names loaded, by simp [start], by simp [start], by simp [start]⟩

end Tracked

/-- **A granted replay replays**, in every run in which the state table holds no
progress of the table when the replay is granted: the run that the entry starts
calls `startChunk` with an empty cursor first. -/
theorem granted_replays [ToString V] (cfg : Config) (instanceID : String) (history : History V) {store : StateMap}
    {names : List String} (hnames : names.Perm store.keys) (loaded : Bool) {t : Tracked V}
    (ht : Reaches Tracked.step Tracked.Reset (Tracked.start cfg instanceID history store names loaded) t) :
    ∀ r ∈ t.replayed, r.cursor = some [] := by
  have hok : t.Ok := ht.invariant (fun _ _ _ hok ha hstep => hok.step ha hstep)
    (Tracked.ok_start cfg instanceID history hnames loaded)
  exact hok.replayed

/-! ### A replay of a completed table -/

def completedUsers : StateMap := AList.insert "public.users" { done := true, rowsCopied := 1 } ∅

def completedNode : Tracked ℕ :=
  Tracked.start { slotName := "gtc", chunkSize := 1, lanes := 1 } "7f3a" {} completedUsers ["public.users"] true

def lane0 (as : List (LaneAct ℕ)) : List (TrackedAct ℕ) := as.map fun a => .node (.lane 0 a)

/-- From the queue up to the reloaded state. -/
def reloadUsers : List (LaneAct ℕ) := [.pop, .primaryKey (.ok ["id"]), .load true, .loaded]

def markedReplay : List (TrackedAct ℕ) :=
  [.node (.stream (.up 0)), .node (.request 0 .enqueueTable [users]), .node (.mark 0 true)]

/-- The replay's `MarkPending` was written, and the run starts over. -/
def resetReplay : List (TrackedAct ℕ) :=
  markedReplay ++ TrackedAct.node (.grant 0) :: lane0 (reloadUsers ++ [LaneAct.resume, .announce, .fill, .waitForStream, .register])

theorem resetReplay_resets : ∀ t, runSteps Tracked.step completedNode resetReplay = some t →
    Reaches Tracked.step Tracked.Reset completedNode t := by
  refine reaches_extend (fun u hu => reaches_of_runSteps_ok ?_ hu) (fun u hu => ?_) ?_
  · intro a ha u
    simp only [markedReplay, List.mem_cons, List.not_mem_nil, or_false] at ha
    rcases ha with rfl | rfl | rfl
    · trivial
    · intro ref href
      rw [List.mem_singleton.mp href]
      exact users_plain
    · trivial
  · intro request hrequest _ ref href _
    have hblank : Blank (u.shared.store.lookup users.string) := by
      have hrow := runSteps_observe (f := fun t => t.shared.store.lookup users.string) hu (v := some {}) (by decide +kernel)
      intro ts hts
      rw [hrow] at hts
      cases hts
      exact ⟨rfl, rfl⟩
    have hrefs : (u.node.requests 0).map (·.tables) = some [users] :=
      runSteps_observe (f := fun t => (t.node.requests 0).map (·.tables)) hu (by decide +kernel)
    rw [hrequest] at hrefs
    simp only [Option.map_some, Option.some.injEq] at hrefs
    rw [hrefs, List.mem_singleton] at href
    rwa [href]
  · intro a ha u
    simp only [lane0, List.mem_map] at ha
    obtain ⟨b, -, rfl⟩ := ha
    trivial

theorem granted_replays_completed : ∃ t, Reaches Tracked.step Tracked.Reset completedNode t ∧ t.replayed ≠ [] ∧
    ∀ r ∈ t.replayed, r.cursor = some [] := by
  obtain ⟨t, ht⟩ := Option.isSome_iff_exists.mp
    (show (runSteps Tracked.step completedNode resetReplay).isSome from by decide +kernel)
  have hone : t.replayed = [{ table := users, cursor := some [] }] :=
    runSteps_observe (f := Tracked.replayed) ht (by decide +kernel)
  exact ⟨t, resetReplay_resets t ht, by simp [hone],
    granted_replays _ _ _ (List.Perm.refl _) true (resetReplay_resets t ht)⟩

/-- `MarkPending` fails, which is only logged. -/
def unmarkedReplay : List (TrackedAct ℕ) :=
  [TrackedAct.node (.request 0 .enqueueTable [users]), .node (.mark 0 false), .node (.grant 0)] ++
    lane0 (reloadUsers ++ [LaneAct.already])

/-- Two replays of an empty table, each written. The second is granted and runs
before the first one is. -/
def overtakenReplay : List (TrackedAct ℕ) :=
  markedReplay ++ [TrackedAct.node (.request 1 .enqueueTable [users]), .node (.mark 1 true), .node (.grant 1)] ++
    lane0 (reloadUsers ++ [LaneAct.resume, .announce, .fill, .waitForStream, .register, .emit true none,
      .select (.ok (1, { rows := [], lastCursor := [] })), .publish, .started, .fill, .done, .record, .save true, .saved,
      .leave, .returned]) ++
    TrackedAct.node (.grant 0) :: lane0 (reloadUsers ++ [LaneAct.already])

/-- **A replay that does nothing.** It is granted, and the run finds the table
completed: because the reset was not written, or because another run completed
the table between the reset and the grant. -/
theorem granted_replay_skipped : ∃ t t', Reaches Tracked.step (fun _ _ => True) completedNode t ∧
    t.replayed = [{ table := users, cursor := none }] ∧ Reaches Tracked.step (fun _ _ => True) completedNode t' ∧
    t'.replayed = [{ table := users, cursor := some [] }, { table := users, cursor := none }] := by
  obtain ⟨t, ht⟩ := Option.isSome_iff_exists.mp
    (show (runSteps Tracked.step completedNode unmarkedReplay).isSome from by decide +kernel)
  obtain ⟨t', ht'⟩ := Option.isSome_iff_exists.mp
    (show (runSteps Tracked.step completedNode overtakenReplay).isSome from by decide +kernel)
  exact ⟨t, t', reaches_of_runSteps ht, runSteps_observe (f := Tracked.replayed) ht (by decide +kernel),
    reaches_of_runSteps ht', runSteps_observe (f := Tracked.replayed) ht' (by decide +kernel)⟩

end Gtc.Backfill
