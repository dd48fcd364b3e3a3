/-
How a node's tables are scheduled: the queue, the tables marked as running and
the lanes that run them.

A table comes into the queue in `Start` or when a request is granted, leaves it
when a lane pops it, and is running until its lane takes it out again; a failed
run writes its status after that, when the table may already run elsewhere.
`Schedules` says which of these a step is. All of them keep a table in one
place at a time (`Scheduled`).
-/
import Gtc.Backfill.Replay

namespace Gtc.Backfill

open Lib

variable {V : Type}

/-! ## What a step does to the schedule -/

/-- The run has left `running`, and is only to write its status. -/
def RunPoint.over : RunPoint → Bool
  | .failed _ => true
  | _ => false

/-- The table a lane runs, until it is taken out of `running`. -/
def Lane.table? : Lane → Option TableRef
  | .running run => if run.point.over then none else some run.ref
  | _ => none

theorem Lane.table?_running {run : Run} (h : run.point.over = false) : (Lane.running run).table? = some run.ref := by
  simp [Lane.table?, h]

inductive Schedules (node node' : Node V) : Prop
  | same (hqueue : node'.coordinator.queue = node.coordinator.queue)
    (hrunning : node'.coordinator.running = node.coordinator.running)
    (hlanes : ∀ j, (node'.lanes j).table? = (node.lanes j).table?) : Schedules node node'
  | pop (l : ℕ) (ref : TableRef) (hidle : (node.lanes l).table? = none)
    (hqueue : node.coordinator.queue = ref :: node'.coordinator.queue)
    (hrunning : node'.coordinator.running = node.coordinator.running.insert ref)
    (hlanes : ∀ j, (node'.lanes j).table? = if j = l then some ref else (node.lanes j).table?) : Schedules node node'
  | finish (l : ℕ) (ref : TableRef) (hheld : (node.lanes l).table? = some ref)
    (hqueue : node'.coordinator.queue = node.coordinator.queue)
    (hrunning : node'.coordinator.running = node.coordinator.running.erase ref)
    (hlanes : ∀ j, (node'.lanes j).table? = if j = l then none else (node.lanes j).table?) : Schedules node node'
  | grant (r : ℕ) (request : Request) (hrequest : node.requests r = some request) (hmarked : request.marked = true)
    (hcoordinator : node'.coordinator = request.tables.foldl (Coordinator.grantTable request.kind) node.coordinator)
    (hlanes : ∀ j, (node'.lanes j).table? = (node.lanes j).table?) : Schedules node node'

/-- A lane moves, and stays with what it runs. -/
theorem Schedules.setLane {node node₁ : Node V} {l : ℕ} {lane : Lane} (hlanes : node₁.lanes = node.lanes)
    (hqueue : node₁.coordinator.queue = node.coordinator.queue)
    (hrunning : node₁.coordinator.running = node.coordinator.running) (hlane : lane.table? = (node.lanes l).table?) :
    Schedules node (node₁.setLane l lane) := by
  refine .same hqueue hrunning fun j => ?_
  simp only [Node.setLane, hlanes, Function.update_apply]
  split
  · rename_i hj
    rw [hj, hlane]
  · rfl

theorem Schedules.note {node node₁ node' : Node V} (hs : Schedules node node₁) {w w' : Shared V} {ref : TableRef}
    {cursor : List String} (hnote : node₁.noteSelect w ref cursor = (w', node')) : Schedules node node' := by
  obtain ⟨firsts, selected, -, rfl, rfl⟩ := Node.noteSelect_eq hnote
  cases hs with
  | same hqueue hrunning hlanes => exact .same hqueue hrunning hlanes
  | pop l ref hidle hqueue hrunning hlanes => exact .pop l ref hidle hqueue hrunning hlanes
  | finish l ref hheld hqueue hrunning hlanes => exact .finish l ref hheld hqueue hrunning hlanes
  | grant r request hrequest hmarked hcoordinator hlanes => exact .grant r request hrequest hmarked hcoordinator hlanes

variable [ToString V] {w w' : Shared V} {node node' : Node V} {l : ℕ}

theorem Schedules.process {h h' : History V} {p' : Process V} {a : ProcessAct V}
    (hstep : node.process.step h a = some (h', p')) {lane : Lane} (hlane : lane.table? = (node.lanes l).table?) :
    Schedules node (Node.setLane { node with process := p' } l lane) :=
  .setLane rfl (Process.step_tables hstep).queue (Process.step_tables hstep).running hlane

theorem Node.RunSteps.schedules {run : Run} {a : LaneAct V} (hrun : node.lanes l = .running run)
    (hstep : Node.RunSteps w node l run a w' node') : Schedules node node' := by
  -- the run is at a point before its end, and goes to another
  have hheld : run.point.over = false → ∀ run' : Run, run'.ref = run.ref → run'.point.over = false →
      (Lane.running run').table? = (node.lanes l).table? := by
    intro hover run' href hover'
    rw [hrun, Lane.table?_running hover, Lane.table?_running hover', href]
  have hreturned : ∀ {err : Option String}, run.point = .returned err → (node.lanes l).table? = some run.ref := by
    intro err hpoint
    rw [hrun, Lane.table?_running (by rw [hpoint]; rfl)]
  have hdropped : ∀ {lane : Lane}, lane.table? = none → ∀ j,
      (Function.update node.lanes l lane j).table? = if j = l then none else (node.lanes j).table? := by
    intro lane hlane j
    rw [Function.update_apply]
    split
    · exact hlane
    · rfl
  cases hstep with
  | @primaryKey answer hpoint =>
    refine .setLane rfl rfl rfl (hheld (by rw [hpoint]; rfl) _ ?_ ?_) <;> cases answer <;> try rfl
    simp only [Run.primaryKey]
    split <;> rfl
  | found hpoint =>
    refine .setLane rfl rfl rfl (hheld (by rw [hpoint]; rfl) _ rfl ?_)
    simp only [Run.reloaded]
    split <;> rfl
  | fill hpoint =>
    refine .setLane rfl rfl rfl (hheld (by rw [hpoint]; rfl) _ rfl ?_)
    simp only [Run.fill]
    split <;> rfl
  | register hpoint hstep | emitFailed hpoint _ hstep | selectFailed hpoint hstep | fail hpoint hstep
  | restart hpoint _ _ hstep | leave hpoint hstep =>
    exact .process hstep (hheld (by rw [hpoint]; rfl) _ rfl rfl)
  | emitted hpoint _ hstep | publish hpoint hstep =>
    exact .same (Process.step_tables hstep).queue (Process.step_tables hstep).running fun _ => rfl
  | selected hpoint hstep hnote =>
    have hover : run.point.over = false := by rw [hpoint]; rfl
    refine .note (.process hstep ?_) hnote
    exact hheld hover _ rfl hover
  | done hpoint =>
    refine .setLane rfl rfl rfl (hheld (by rw [hpoint]; rfl) _ ?_ ?_) <;> simp only [Run.delivered] <;> split <;> rfl
  | progressed hpoint =>
    refine .setLane rfl rfl rfl (hheld (by rw [hpoint]; rfl) _ rfl ?_)
    dsimp only
    split <;> rfl
  | cancel _ hpoint =>
    refine .setLane rfl rfl rfl (hheld ?_ _ rfl rfl)
    rcases hpoint with hpoint | hpoint | hpoint <;> rw [hpoint] <;> rfl
  | finished hpoint => exact .finish l run.ref (hreturned hpoint) rfl rfl (hdropped rfl)
  | returned hpoint => exact .finish l run.ref (hreturned hpoint) rfl rfl (hdropped rfl)
  | stopped hpoint | failed hpoint =>
    refine .setLane rfl rfl rfl ?_
    rw [hrun]
    simp [Lane.table?, hpoint, RunPoint.over]
  | skip hpoint | load hpoint | reloadFailed hpoint | notFound hpoint | already hpoint | resume hpoint | announce hpoint
  | waitForStream hpoint | started hpoint | record hpoint | save hpoint | completed hpoint | delay hpoint =>
    exact .setLane rfl rfl rfl (hheld (by rw [hpoint]; rfl) _ rfl rfl)

theorem Node.step_schedules {a : NodeAct V} (hstep : node.step w a = some (w', node')) : Schedules node node' := by
  cases Node.steps_of_step hstep with
  | stream hcall => exact .same (Process.step_tables hcall).queue (Process.step_tables hcall).running fun _ => rfl
  | run hrun hstep => exact hstep.schedules hrun
  | sleep hlane | wake hlane | stopped hlane => exact .setLane rfl rfl rfl (by rw [hlane]; rfl)
  | @pop l ref _ hlane hqueue =>
    refine .pop l ref (by rw [hlane]; rfl) hqueue rfl fun j => ?_
    simp only [Node.setRun, Node.setLane, Node.keep, Function.update_apply]
    split <;> rfl
  | @grant r request hrequest hmarked => exact .grant r request hrequest hmarked rfl fun _ => rfl
  | request | mark | stop => exact .same rfl rfl fun _ => rfl

/-- A lane in a run was in one of the same table, or has popped it. -/
theorem Node.step_running {a : NodeAct V} (hstep : node.step w a = some (w', node')) {j : ℕ} {run' : Run}
    (hrun' : node'.lanes j = .running run') :
    (∃ run, node.lanes j = .running run ∧ run'.ref = run.ref) ∨ run'.ref ∈ node.coordinator.queue := by
  by_cases hmoves : a.moves j
  · cases a with
    | lane l a =>
      obtain rfl : j = l := hmoves
      rcases Node.laneStep_running hstep hrun' with ⟨run, hrun, hstep⟩ | ⟨ref, href, rfl⟩
      · exact .inl ⟨run, hrun, hstep.ref hrun hrun'⟩
      · exact .inr href
    | _ => exact hmoves.elim
  · rw [Node.step_lanes hstep hmoves] at hrun'
    exact .inl ⟨run', hrun', rfl⟩

/-! ## Requests -/

/-- Where a request comes from: it was there, it is marked now, or it is new. -/
theorem Node.step_requests {a : NodeAct V} (hstep : node.step w a = some (w', node')) {r : ℕ} {request : Request}
    (hrequest : node'.requests r = some request) : node.requests r = some request ∨
      (∃ request' written, a = .mark r written ∧ node.requests r = some request' ∧ request = { request' with marked := true }) ∨
      ∃ kind tables, a = .request r kind tables ∧ request = { kind, tables := node.coordinator.candidates kind tables } := by
  cases Node.steps_of_step hstep with
  | run _ hstep => exact .inl (by rwa [hstep.requests] at hrequest)
  | @request r' kind tables =>
    by_cases hr : r = r'
    · subst hr
      simp only [Node.setRequest, Function.update_self, Option.some.injEq] at hrequest
      exact .inr (.inr ⟨kind, tables, rfl, hrequest.symm⟩)
    · simp only [Node.setRequest, Function.update_of_ne hr] at hrequest
      exact .inl hrequest
  | @mark r' written request' hrequest' =>
    by_cases hr : r = r'
    · subst hr
      simp only [Node.setRequest, Function.update_self, Option.some.injEq] at hrequest
      exact .inr (.inl ⟨request', written, rfl, hrequest', hrequest.symm⟩)
    · simp only [Node.setRequest, Function.update_of_ne hr] at hrequest
      exact .inl hrequest
  | @grant r' =>
    by_cases hr : r = r'
    · subst hr
      simp [Node.setRequest] at hrequest
    · simp only [Node.setRequest, Node.keep, Function.update_of_ne hr] at hrequest
      exact .inl hrequest
  | _ => exact .inl hrequest

/-! ## One place at a time -/

omit [ToString V] in
/-- The second critical section for one table, on the schedule. -/
theorem Coordinator.grantTable_schedule (kind : RequestKind) (c : Coordinator V) (ref : TableRef) :
    (Coordinator.grantTable kind c ref).running = c.running ∧
      (Coordinator.grantTable kind c ref).queue = if c.busy ref then c.queue else c.queue ++ [ref] := by
  have henqueue : ∀ c' : Coordinator V, (c'.enqueueLocked ref).running = c'.running ∧
      (c'.enqueueLocked ref).queue = c'.queue ++ [ref] := by
    intro c'
    simp only [Coordinator.enqueueLocked, Coordinator.signal]
    split <;> exact ⟨rfl, rfl⟩
  unfold Coordinator.grantTable
  split
  · exact ⟨rfl, rfl⟩
  · split <;> exact henqueue _

omit [ToString V] in
theorem grant_queue (kind : RequestKind) (tables : List TableRef) (c : Coordinator V) :
    ∀ ref ∈ (tables.foldl (Coordinator.grantTable kind) c).queue, ref ∈ c.queue ∨ ref ∈ tables := by
  induction tables generalizing c with
  | nil => exact fun _ href => .inl href
  | cons ref' tables ih =>
    intro ref href
    rcases ih _ ref href with href | href
    · rcases (Coordinator.grantTable_tables kind c ref').2 ref href with href | rfl
      · exact .inl href
      · exact .inr (by simp)
    · exact .inr (by simp [href])

omit [ToString V] in
theorem grant_running (kind : RequestKind) (tables : List TableRef) (c : Coordinator V) :
    (tables.foldl (Coordinator.grantTable kind) c).running = c.running := by
  induction tables generalizing c with
  | nil => rfl
  | cons ref tables ih => exact (ih _).trans (Coordinator.grantTable_schedule kind c ref).1

/-- The queue holds no table twice, and none that runs; a lane's table is marked
as running, and is no other lane's. -/
structure Scheduled (node : Node V) : Prop where
  queue : node.coordinator.queue.Nodup
  apart : ∀ ref ∈ node.coordinator.queue, ref ∉ node.coordinator.running
  held : ∀ l ref, (node.lanes l).table? = some ref → ref ∈ node.coordinator.running
  once : ∀ l l' ref, (node.lanes l).table? = some ref → (node.lanes l').table? = some ref → l = l'

omit [ToString V] in
/-- The part of it that a grant touches. -/
theorem grant_schedule (kind : RequestKind) (tables : List TableRef) (c : Coordinator V) (hnodup : c.queue.Nodup)
    (hapart : ∀ ref ∈ c.queue, ref ∉ c.running) :
    (tables.foldl (Coordinator.grantTable kind) c).queue.Nodup ∧
      ∀ ref ∈ (tables.foldl (Coordinator.grantTable kind) c).queue, ref ∉ c.running := by
  induction tables generalizing c with
  | nil => exact ⟨hnodup, hapart⟩
  | cons ref tables ih =>
    obtain ⟨hrunning, hqueue⟩ := Coordinator.grantTable_schedule kind c ref
    rw [List.foldl_cons, ← hrunning]
    by_cases hbusy : c.busy ref = true
    · rw [if_pos hbusy] at hqueue
      exact ih _ (by rwa [hqueue]) (by rwa [hqueue, hrunning])
    · rw [if_neg hbusy] at hqueue
      simp only [Coordinator.busy, Bool.or_eq_true, List.contains_iff_mem, not_or] at hbusy
      refine ih _ ?_ ?_
      · rw [hqueue, List.nodup_append]
        refine ⟨hnodup, List.nodup_singleton ref, fun a ha b hb heq => hbusy.2 ?_⟩
        rw [List.mem_singleton] at hb
        rwa [← hb, ← heq]
      · intro ref' href'
        rw [hqueue, List.mem_append, List.mem_singleton] at href'
        rw [hrunning]
        rcases href' with href' | rfl
        · exact hapart ref' href'
        · exact hbusy.1

omit [ToString V] in
theorem Scheduled.schedules (hn : Scheduled node) (hs : Schedules node node') : Scheduled node' := by
  cases hs with
  | same hqueue hrunning hlanes =>
    refine ⟨by rw [hqueue]; exact hn.queue, by rw [hqueue, hrunning]; exact hn.apart, fun l ref href => ?_,
      fun l l' ref href href' => ?_⟩
    · rw [hrunning]
      exact hn.held l ref (by rw [← hlanes]; exact href)
    · rw [hlanes] at href href'
      exact hn.once l l' ref href href'
  | pop l ref hidle hqueue hrunning hlanes =>
    have hnodup := hn.queue
    have hapart := hn.apart
    rw [hqueue, List.nodup_cons] at hnodup
    rw [hqueue] at hapart
    -- the popped table runs in no lane yet
    have hnew : ∀ j, (node.lanes j).table? ≠ some ref := fun j href => hapart ref (by simp) (hn.held j ref href)
    refine ⟨hnodup.2, fun ref' href' hmem => ?_, fun j ref' href' => ?_, fun j j' ref' href href' => ?_⟩
    · rw [hrunning, List.mem_insert_iff] at hmem
      rcases hmem with rfl | hmem
      · exact hnodup.1 href'
      · exact hapart ref' (by simp [href']) hmem
    · rw [hlanes] at href'
      rw [hrunning, List.mem_insert_iff]
      split at href'
      · cases href'
        exact .inl rfl
      · exact .inr (hn.held j ref' href')
    · rw [hlanes] at href href'
      split at href <;> split at href' <;> rename_i hj hj'
      · rw [hj, hj']
      · cases href
        exact absurd href' (hnew j')
      · cases href'
        exact absurd href (hnew j)
      · exact hn.once j j' ref' href href'
  | finish l ref hheld hqueue hrunning hlanes =>
    have hsub : ∀ ref', ref' ∈ node'.coordinator.running → ref' ∈ node.coordinator.running := fun ref' hmem => by
      rw [hrunning] at hmem
      exact List.mem_of_mem_erase hmem
    refine ⟨by rw [hqueue]; exact hn.queue, fun ref' href' hmem => ?_, fun j ref' href' => ?_, fun j j' ref' href href' => ?_⟩
    · rw [hqueue] at href'
      exact hn.apart ref' href' (hsub ref' hmem)
    · rw [hlanes] at href'
      split at href'
      · cases href'
      · rename_i hj
        have hne : ref' ≠ ref := by
          rintro rfl
          exact hj (hn.once j l ref' href' hheld)
        rw [hrunning, List.mem_erase_of_ne hne]
        exact hn.held j ref' href'
    · rw [hlanes] at href href'
      split at href <;> split at href'
      · cases href
      · cases href
      · cases href'
      · exact hn.once j j' ref' href href'
  | grant r request _ _ hcoordinator hlanes =>
    obtain ⟨hnodup, hapart⟩ := grant_schedule request.kind request.tables node.coordinator hn.queue hn.apart
    have hrunning := grant_running request.kind request.tables node.coordinator
    refine ⟨by rwa [hcoordinator], by rwa [hcoordinator, hrunning], fun j ref href => ?_, fun j j' ref href href' => ?_⟩
    · rw [hcoordinator, hrunning]
      exact hn.held j ref (by rw [← hlanes]; exact href)
    · rw [hlanes] at href href'
      exact hn.once j j' ref href href'

/-- **A table is in one place at a time**, whatever the node does next. -/
theorem Scheduled.step (hn : Scheduled node) {a : NodeAct V} (hstep : node.step w a = some (w', node')) : Scheduled node' :=
  hn.schedules (Node.step_schedules hstep)

/-! ## `Start` -/

theorem mem_of_lookup {store : StateMap} {name : String} {ts : TableState} (h : store.lookup name = some ts) : name ∈ store :=
  AList.lookup_isSome.mp (by rw [h]; rfl)

omit [ToString V] in
theorem startTable_schedule (c : Coordinator V) (name : String) :
    (c.startTable name).running = c.running ∧ ((c.startTable name).queue = c.queue ∨
      ∃ ref, splitTableName name = some ref ∧ name ∈ c.state ∧ (c.startTable name).queue = c.queue ++ [ref]) := by
  unfold Coordinator.startTable
  split
  · rename_i ref ts hsplit hlookup
    split
    · exact ⟨rfl, .inl rfl⟩
    · split
      · exact ⟨rfl, .inl rfl⟩
      · simp only [Coordinator.setStatus, Coordinator.enqueueLocked, Coordinator.signal]
        have hname : name ∈ c.state := mem_of_lookup hlookup
        split <;> exact ⟨rfl, .inr ⟨ref, hsplit, hname, rfl⟩⟩
  · exact ⟨rfl, .inl rfl⟩

omit [ToString V] in
/-- `Start` queues a table for a name at most, and different names are of
different tables. -/
theorem startTables_schedule (names : List String) (c : Coordinator V) (hnames : names.Nodup) (hnodup : c.queue.Nodup)
    (hold : ∀ ref ∈ c.queue, ref.string ∉ names) :
    (names.foldl Coordinator.startTable c).running = c.running ∧ (names.foldl Coordinator.startTable c).queue.Nodup := by
  induction names generalizing c with
  | nil => exact ⟨rfl, hnodup⟩
  | cons name names ih =>
    rw [List.nodup_cons] at hnames
    obtain ⟨hrunning, hqueue⟩ := startTable_schedule c name
    rw [List.foldl_cons, ← hrunning]
    rcases hqueue with hqueue | ⟨ref, hsplit, -, hqueue⟩
    · exact ih _ hnames.2 (by rwa [hqueue]) fun ref href hmem => hold ref (by rwa [hqueue] at href) (by simp [hmem])
    · have hname := (splitTableName_spec hsplit).2
      refine ih _ hnames.2 ?_ fun ref' href' => ?_
      · rw [hqueue, List.nodup_append]
        refine ⟨hnodup, List.nodup_singleton ref, fun a ha b hb heq => hold a ha ?_⟩
        rw [List.mem_singleton] at hb
        rw [heq, hb, hname]
        simp
      · rw [hqueue, List.mem_append, List.mem_singleton] at href'
        rcases href' with href' | rfl
        · exact fun hmem => hold ref' href' (by simp [hmem])
        · rw [hname]
          exact hnames.1

omit [ToString V] in
theorem startNode_table? (cfg : Config) (instanceID : String) (store : StateMap) (names : List String) (loaded : Bool) (l : ℕ) :
    ((startNode cfg instanceID store names loaded : Node V).lanes l).table? = none := by
  cases hlane : (startNode cfg instanceID store names loaded : Node V).lanes l with
  | running run => exact absurd hlane ((startNode_idle cfg instanceID store names loaded).2 l run)
  | _ => rfl

omit [ToString V] in
theorem scheduled_start (cfg : Config) (instanceID : String) {store : StateMap} {names : List String}
    (hnames : names.Perm store.keys) (loaded : Bool) : Scheduled (startNode cfg instanceID store names loaded : Node V) := by
  obtain ⟨hrunning, hnodup⟩ : (startNode cfg instanceID store names loaded : Node V).coordinator.running = [] ∧
      (startNode cfg instanceID store names loaded : Node V).coordinator.queue.Nodup := by
    cases loaded with
    | false => exact ⟨rfl, List.nodup_nil⟩
    | true =>
      exact startTables_schedule names { (newCoordinator cfg instanceID : Coordinator V) with state := store }
        (hnames.nodup_iff.mpr store.keys_nodup) List.nodup_nil (by simp [newCoordinator])
  refine ⟨hnodup, by simp [hrunning], fun l ref href => ?_, fun l l' ref href => ?_⟩ <;> simp [startNode_table?] at href

/-! ## Every run of the nodes -/

section World

variable {N : Type} [DecidableEq N]

/-- What a node has when it starts and every step of it keeps, every node has in
every run. -/
theorem World.nodes_invariant {P : Node V → Prop}
    (hstart : ∀ cfg instanceID store names loaded, names.Perm (AList.keys store) → P (startNode cfg instanceID store names loaded))
    (hstep : ∀ w node a w' node', P node → node.step w a = some (w', node') → P node') {shared : Shared V} {w : World N V}
    (hw : Reaches World.step (fun _ _ => True) { shared } w) : ∀ n node, w.nodes n = some node → P node :=
  hw.invariant (P := fun w => ∀ n node, w.nodes n = some node → P node)
    (fun w _ _ hw _ hworld => World.step_nodes hworld hw (fun cfg instanceID names loaded => hstart cfg instanceID _ names loaded)
      fun _ b node node' _ hn hnode => hstep w.shared node b _ node' hn hnode)
    fun n node hn => by cases hn

theorem World.scheduled {shared : Shared V} {w : World N V} (hw : Reaches World.step (fun _ _ => True) { shared } w) {n : N}
    {node : Node V} (hn : w.nodes n = some node) : Scheduled node :=
  World.nodes_invariant (fun cfg instanceID _ _ loaded hnames => scheduled_start cfg instanceID hnames loaded)
    (fun _ _ _ _ _ hs hstep => hs.step hstep) hw n node hn

/-- **A table is scheduled at most once**: in every run of the nodes, from any
persisted state, whatever the database calls answer. -/
theorem scheduled_once (shared : Shared V) {w : World N V} (hw : Reaches World.step (fun _ _ => True) { shared } w) {n : N}
    {node : Node V} (hn : w.nodes n = some node) : node.coordinator.queue.Nodup ∧
      (∀ ref ∈ node.coordinator.queue, ref ∉ node.coordinator.running ∧
        ∀ l run, node.lanes l = .running run → run.point.over = false → run.ref ≠ ref) ∧
      ∀ l l' run run', node.lanes l = .running run → node.lanes l' = .running run' → run.point.over = false →
        run'.point.over = false → run.ref = run'.ref → l = l' := by
  have hs := World.scheduled hw hn
  have htable : ∀ {l run}, node.lanes l = .running run → run.point.over = false → (node.lanes l).table? = some run.ref := by
    intro l run hrun hover
    rw [hrun, Lane.table?_running hover]
  refine ⟨hs.queue, fun ref href => ⟨hs.apart ref href, fun l run hrun hover heq => ?_⟩, fun l l' run run' hrun hrun' hover hover' heq => ?_⟩
  · exact hs.apart ref href (hs.held l ref (heq ▸ htable hrun hover))
  · exact hs.once l l' run.ref (htable hrun hover) (heq ▸ htable hrun' hover')

end World

/-! ### Two requests for one table -/

/-- A table whose backfill was interrupted is resumed by `Start`, and asked for
twice while it is queued and while it runs. -/
def askedTwice : List (WorldAct Unit ℕ) :=
  [.boot () { slotName := "gtc", chunkSize := 1, lanes := 2 } "7f3a" ["public.users"] true,
    .node () (.request 0 .replayAll [users, ⟨"public", "orders"⟩]), .node () (.lane 0 .pop),
    .node () (.mark 0 true), .node () (.request 1 .enqueueAll [users]), .node () (.mark 1 true), .node () (.grant 1),
    .node () (.grant 0), .node () (.lane 1 .pop)]

theorem scheduled_once_asked : ∃ (w : World Unit ℕ) (node : Node ℕ), w.nodes () = some node ∧
    node.coordinator.running = [⟨"public", "orders"⟩, users] ∧ node.coordinator.queue.Nodup ∧
    ∀ l l' run run', node.lanes l = .running run → node.lanes l' = .running run' → run.point.over = false →
      run'.point.over = false → run.ref = run'.ref → l = l' := by
  have hrun : (runSteps World.step { shared := { store := AList.insert "public.users" {} ∅ } } askedTwice).isSome = true := by
    decide +kernel
  obtain ⟨w, hw⟩ := Option.isSome_iff_exists.mp hrun
  have hnode : (w.nodes ()).isSome = true := runSteps_observe (f := fun w => (w.nodes ()).isSome) hw (by decide +kernel)
  obtain ⟨node, hn⟩ := Option.isSome_iff_exists.mp hnode
  have hrunning : (w.nodes ()).map (·.coordinator.running) = some [⟨"public", "orders"⟩, users] :=
    runSteps_observe (f := fun w => (w.nodes ()).map (·.coordinator.running)) hw (by decide +kernel)
  rw [hn] at hrunning
  obtain ⟨hnodup, -, honce⟩ := scheduled_once _ (reaches_of_runSteps hw) hn
  exact ⟨w, node, hn, Option.some.inj hrunning, hnodup, honce⟩

/-! ## Wakeups -/

/-- The lanes are those of the configuration, and a queue that is not empty has a
token in the channel or a lane that will look at it. -/
structure Wakes (node : Node V) : Prop where
  lanes : 0 < node.coordinator.cfg.lanes
  beyond : ∀ l, node.coordinator.cfg.lanes ≤ l → node.lanes l = .stopped
  awake : node.coordinator.queue ≠ [] → 0 < node.coordinator.wake ∨ ∃ l < node.coordinator.cfg.lanes, node.lanes l ≠ .asleep

/-- A run changes neither the queue nor the channel. -/
theorem Node.RunSteps.quiet {run : Run} {a : LaneAct V} (hstep : Node.RunSteps w node l run a w' node') :
    node'.coordinator.cfg = node.coordinator.cfg ∧ node'.coordinator.queue = node.coordinator.queue ∧
      node'.coordinator.wake = node.coordinator.wake := by
  have hprocess : ∀ {h h' : History V} {p' : Process V} {a : ProcessAct V}, node.process.step h a = some (h', p') →
      p'.coordinator.cfg = node.coordinator.cfg ∧ p'.coordinator.queue = node.coordinator.queue ∧
        p'.coordinator.wake = node.coordinator.wake := fun hstep =>
    ⟨(Process.step_tables hstep).cfg, (Process.step_tables hstep).queue, (Process.step_tables hstep).wake⟩
  cases hstep with
  | selected _ hstep hnote =>
    obtain ⟨firsts, selected, -, rfl, rfl⟩ := Node.noteSelect_eq hnote
    exact hprocess hstep
  | register _ hstep | emitted _ _ hstep | emitFailed _ _ hstep | selectFailed _ hstep | publish _ hstep | fail _ hstep
  | restart _ _ _ hstep | leave _ hstep => exact hprocess hstep
  | _ => exact ⟨rfl, rfl, rfl⟩

/-- A run does not end in sleep: the lane looks at the queue first. -/
theorem Node.RunSteps.awake {run : Run} {a : LaneAct V} (hrun : node.lanes l = .running run)
    (hstep : Node.RunSteps w node l run a w' node') : node'.lanes l ≠ .asleep := by
  have hset : ∀ {lane : Lane}, lane ≠ .asleep → Function.update node.lanes l lane l ≠ .asleep := by
    intro lane hlane
    rwa [Function.update_self]
  cases hstep with
  | emitted | publish => simp [hrun]
  | selected _ _ hnote =>
    obtain ⟨firsts, selected, -, rfl, rfl⟩ := Node.noteSelect_eq hnote
    exact hset (by simp)
  | _ => exact hset (by simp)

omit [ToString V] in
/-- A lane that moved looks at the queue, or found it empty. -/
theorem Wakes.lane (hn : Wakes node) (hrange : l < node.coordinator.cfg.lanes)
    (hcfg : node'.coordinator.cfg = node.coordinator.cfg) (hlanes : ∀ j, j ≠ l → node'.lanes j = node.lanes j)
    (hawake : node'.coordinator.queue ≠ [] → node'.lanes l ≠ .asleep) : Wakes node' where
  lanes := by rw [hcfg]; exact hn.lanes
  beyond j hj := by
    rw [hcfg] at hj
    rw [hlanes j (by omega)]
    exact hn.beyond j hj
  awake hqueue := .inr ⟨l, by rwa [hcfg], hawake hqueue⟩

theorem Wakes.laneStep (hn : Wakes node) {a : LaneAct V} (hstep : node.laneStep w l a = some (w', node')) : Wakes node' := by
  have hrange : node.lanes l ≠ .stopped → l < node.coordinator.cfg.lanes := fun hlane => by
    by_contra hle
    exact hlane (hn.beyond l (by omega))
  have hset : ∀ {node₁ : Node V} {lane : Lane}, node₁.lanes = node.lanes → ∀ j, j ≠ l →
      (node₁.setLane l lane).lanes j = node.lanes j := by
    intro node₁ lane heq j hj
    rw [← heq]
    exact Function.update_of_ne hj _ _
  have hself : ∀ {node₁ : Node V} {lane : Lane}, lane ≠ .asleep → (node₁.setLane l lane).lanes l ≠ .asleep := by
    intro node₁ lane hlane
    simpa [Node.setLane] using hlane
  cases Node.steps_of_laneStep hstep with
  | run hrun hstep =>
    exact hn.lane (hrange (by simp [hrun])) hstep.quiet.1 (fun j hj => hstep.lanes hj) fun _ => hstep.awake hrun
  | sleep hlane hqueue => exact hn.lane (hrange (by simp [hlane])) rfl (hset rfl) fun hne => absurd hqueue hne
  | pop hlane | wake hlane | stopped hlane =>
    exact hn.lane (hrange (by simp [hlane])) rfl (hset rfl) fun _ => hself (by simp)

omit [ToString V] in
/-- A grant that queues a table leaves a token. -/
theorem grant_wake (kind : RequestKind) (tables : List TableRef) (c : Coordinator V) (hlanes : 0 < c.cfg.lanes) :
    ((tables.foldl (Coordinator.grantTable kind) c).queue = c.queue ∧
      (tables.foldl (Coordinator.grantTable kind) c).wake = c.wake) ∨
      0 < (tables.foldl (Coordinator.grantTable kind) c).wake := by
  have henqueue : ∀ (c' : Coordinator V) (ref : TableRef), c'.cfg = c.cfg → 0 < (c'.enqueueLocked ref).wake := by
    intro c' ref hcfg
    simp only [Coordinator.enqueueLocked, Coordinator.signal]
    split <;> simp only [hcfg] <;> omega
  induction tables generalizing c with
  | nil => exact .inl ⟨rfl, rfl⟩
  | cons ref tables ih =>
    have hcfg := (Coordinator.grantTable_chunks kind c ref).cfg
    rw [List.foldl_cons]
    have hone : Coordinator.grantTable kind c ref = c ∨ 0 < (Coordinator.grantTable kind c ref).wake := by
      unfold Coordinator.grantTable
      split
      · exact .inl rfl
      · split <;> exact .inr (henqueue _ ref rfl)
    have hrest := ih (Coordinator.grantTable kind c ref) (by rwa [hcfg]) fun c' ref' hcfg' => henqueue c' ref' (hcfg'.trans hcfg)
    rcases hone with hone | hone
    · rwa [hone] at hrest ⊢
    · rcases hrest with ⟨-, hwake⟩ | hwake
      · exact .inr (by rwa [hwake])
      · exact .inr hwake

/-- The configuration does not change. -/
theorem Node.step_cfg {a : NodeAct V} (hstep : node.step w a = some (w', node')) :
    node'.coordinator.cfg = node.coordinator.cfg := by
  cases Node.steps_of_step hstep with
  | stream hcall => exact (Process.step_tables hcall).cfg
  | run _ hstep => exact hstep.quiet.1
  | grant => exact (Coordinator.foldl_chunks (Coordinator.grantTable_chunks _) _ node.coordinator).cfg
  | _ => rfl

theorem Wakes.step (hn : Wakes node) {a : NodeAct V} (hstep : node.step w a = some (w', node')) : Wakes node' := by
  cases Node.steps_of_step hstep with
  | stream hcall =>
    have ht := Process.step_tables hcall
    refine ⟨?_, ?_, ?_⟩ <;> simp only [Node.coordinator, ht.cfg, ht.queue, ht.wake]
    · exact hn.lanes
    · exact hn.beyond
    · exact hn.awake
  | run | sleep | pop | wake | stopped => exact hn.laneStep hstep
  | @grant r request =>
    have hcfg := (Coordinator.foldl_chunks (Coordinator.grantTable_chunks request.kind) request.tables node.coordinator).cfg
    refine ⟨?_, ?_, fun hqueue => ?_⟩
    · exact hcfg.symm ▸ hn.lanes
    · intro j hj
      exact hn.beyond j (hcfg ▸ hj)
    · rcases grant_wake request.kind request.tables node.coordinator hn.lanes with ⟨hsame, hwake⟩ | hwake
      · rcases hn.awake (by rwa [← hsame]) with htoken | ⟨j, hj, hlane⟩
        · exact .inl (hwake.symm ▸ htoken)
        · exact .inr ⟨j, hcfg.symm ▸ hj, hlane⟩
      · exact .inl hwake
  | request | mark | stop => exact ⟨hn.lanes, hn.beyond, hn.awake⟩

omit [ToString V] in
theorem startNode_cfg (cfg : Config) (instanceID : String) (store : StateMap) (names : List String) (loaded : Bool) :
    (startNode cfg instanceID store names loaded : Node V).coordinator.cfg =
      (newCoordinator cfg instanceID : Coordinator V).cfg := by
  cases loaded with
  | false => rfl
  | true => exact (Coordinator.foldl_chunks Coordinator.startTable_chunks names _).cfg

omit [ToString V] in
theorem wakes_start (cfg : Config) (instanceID : String) (store : StateMap) (names : List String) (loaded : Bool) :
    Wakes (startNode cfg instanceID store names loaded : Node V) := by
  have hlanes : 0 < (startNode cfg instanceID store names loaded : Node V).coordinator.cfg.lanes := by
    rw [startNode_cfg]
    simp only [newCoordinator]
    split
    · decide
    · exact Nat.pos_of_ne_zero ‹_›
  have hready : (startNode cfg instanceID store names loaded : Node V).lanes 0 = .ready := if_pos hlanes
  exact ⟨hlanes, fun l hl => if_neg (Nat.not_lt.mpr hl), fun _ => .inr ⟨0, hlanes, by simp [hready]⟩⟩

theorem World.wakes {N : Type} [DecidableEq N] {shared : Shared V} {w : World N V}
    (hw : Reaches World.step (fun _ _ => True) { shared } w) {n : N} {node : Node V} (hn : w.nodes n = some node) : Wakes node :=
  World.nodes_invariant (fun cfg instanceID store names loaded _ => wakes_start cfg instanceID store names loaded)
    (fun _ _ _ _ _ hn hstep => hn.step hstep) hw n node hn

/-- **No lost wakeup**: no node is ever in a state in which tables are queued,
every lane is blocked on the `wake` channel and the channel is empty. -/
theorem no_lost_wakeup {N : Type} [DecidableEq N] (shared : Shared V) {w : World N V}
    (hw : Reaches World.step (fun _ _ => True) { shared } w) {n : N} {node : Node V} (hn : w.nodes n = some node) :
    ¬ (node.coordinator.queue ≠ [] ∧ (∀ l < node.coordinator.cfg.lanes, node.lanes l = .asleep) ∧ node.coordinator.wake = 0) := by
  have hwakes := World.wakes hw hn
  rintro ⟨hqueue, hasleep, hempty⟩
  rcases hwakes.awake hqueue with htoken | ⟨l, hl, hlane⟩
  · omega
  · exact hlane (hasleep l hl)

/-- Two lanes have gone to sleep when two tables are queued; one token wakes one
of them. -/
def oneWakes : List (WorldAct Unit ℕ) :=
  [.boot () { slotName := "gtc", chunkSize := 1, lanes := 2 } "7f3a" [] true, .node () (.lane 0 .pop), .node () (.lane 1 .pop),
    .node () (.request 0 .replayAll [users, ⟨"public", "orders"⟩]), .node () (.mark 0 true), .node () (.grant 0),
    .node () (.lane 1 .wake), .node () (.lane 1 .pop)]

theorem no_lost_wakeup_asleep : ∃ (w : World Unit ℕ) (node : Node ℕ), w.nodes () = some node ∧
    node.coordinator.queue = [⟨"public", "orders"⟩] ∧ node.lanes 0 = .asleep ∧
    ¬ (node.coordinator.queue ≠ [] ∧ (∀ l < node.coordinator.cfg.lanes, node.lanes l = .asleep) ∧ node.coordinator.wake = 0) := by
  have hrun : (runSteps World.step {} oneWakes).isSome = true := by decide +kernel
  obtain ⟨w, hw⟩ := Option.isSome_iff_exists.mp hrun
  have hnode : (w.nodes ()).isSome = true := runSteps_observe (f := fun w => (w.nodes ()).isSome) hw (by decide +kernel)
  obtain ⟨node, hn⟩ := Option.isSome_iff_exists.mp hnode
  have hqueue : (w.nodes ()).map (fun node => (node.coordinator.queue, node.lanes 0)) =
      some ([⟨"public", "orders"⟩], .asleep) :=
    runSteps_observe (f := fun w => (w.nodes ()).map fun node => (node.coordinator.queue, node.lanes 0)) hw (by decide +kernel)
  rw [hn] at hqueue
  have hboth := Option.some.inj hqueue
  exact ⟨w, node, hn, congrArg Prod.fst hboth, congrArg Prod.snd hboth, no_lost_wakeup {} (reaches_of_runSteps hw) hn⟩

end Gtc.Backfill
