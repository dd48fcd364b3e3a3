/-
The initial backfill: a process that created the replication slot calls
`EnqueueAll` once, from the hook that the reader calls when replication starts.

That the slot was created is remembered in the process only, and every step from
there to the written `MarkPending` can be the last one: the process crashes, the
answer to `CREATE_REPLICATION_SLOT` is lost, `PublicationTables` or `MarkPending`
fails and is only logged. A process that finds the slot there assumes that its
tables were queued. `Deployment` puts the readers of the nodes, the slot and the
publication around `World`.
-/
import Gtc.Backfill.Schedule

namespace Gtc.Backfill

open Lib

variable {V : Type}

/-! ## Readers, the slot and the publication -/

/-- How far a reader is: `setupReplication` up to the slot, and from there on. -/
inductive ReaderPoint where
  | offline
  /-- `ensureReplicationSlot` has returned. -/
  | slotReady
  /-- `StartReplication` has returned, and `StreamStarted` was called. -/
  | replicating
deriving DecidableEq, Repr

/-- The reader of a process, and the hook of `newWALReader` in auto mode. -/
structure Reader where
  slotCreated : Bool := false
  /-- `once` is done. -/
  fired : Bool := false
  /-- The goroutine has not called `EnqueueAll` yet. -/
  pending : Bool := false
  point : ReaderPoint := .offline
deriving DecidableEq, Repr

/-- The `StreamStarted` hook. -/
def Reader.streamStarted (r : Reader) : Reader :=
  if r.slotCreated = false then r
  else if r.fired then r
  else { r with fired := true, pending := true }

structure Deployment (N V : Type) where
  world : World N V
  readers : N → Reader := fun _ => {}
  /-- The tables of the publication. -/
  published : List TableRef
  /-- The slot, if there is one: the tables that were published when GTC created
  it, or none if it did not. -/
  slot : Option (Option (List TableRef)) := none

inductive DeploymentAct (N V : Type) where
  | commit (events : List (CDCEvent V))
  | foreign (content : Option WatermarkPayload)
  /-- A table joins the publication. -/
  | publish (ref : TableRef)
  /-- Someone else creates the slot. -/
  | adminSlot
  | boot (n : N) (instanceID : String) (names : List String) (loaded : Bool)
  | crash (n : N)
  /-- `ensureReplicationSlot` finds the slot. -/
  | findSlot (n : N)
  /-- It creates the slot: whether the server did, and whether it says so. -/
  | createSlot (n : N) (written ok : Bool)
  | startReplication (n : N) (ok : Bool)
  /-- The hook's goroutine calls `EnqueueAll`; `PublicationTables` answers. -/
  | enqueueAll (n : N) (r : ℕ) (ok : Bool)
  | node (n : N) (a : NodeAct V)

namespace Deployment

variable {N : Type} [DecidableEq N]

def setReader (d : Deployment N V) (n : N) (r : Reader) : Deployment N V :=
  { d with readers := Function.update d.readers n r }

def onWorld [ToString V] (d : Deployment N V) (a : WorldAct N V) : Option (Deployment N V) :=
  (d.world.step a).map fun world => { d with world }

/-- Only the hook calls `EnqueueAll`, and a session starts when replication has. -/
def Allows (d : Deployment N V) (n : N) : NodeAct V → Prop
  | .request _ kind _ => kind ≠ .enqueueAll
  | .stream (.up _) => (d.readers n).point = .replicating
  | _ => True

instance (d : Deployment N V) (n : N) (a : NodeAct V) : Decidable (d.Allows n a) := by
  unfold Allows
  split <;> infer_instance

/-- Where the reader is after a step of its node. -/
def afterNode (r : Reader) : NodeAct V → Reader
  | .stream .down => { r with point := .offline }
  | _ => r

/-- All processes have one configuration. -/
def step [ToString V] (cfg : Config) (d : Deployment N V) : DeploymentAct N V → Option (Deployment N V)
  | .commit events => d.onWorld (.commit events)
  | .foreign content => d.onWorld (.foreign content)
  | .publish ref => some { d with published := d.published ++ [ref] }
  | .adminSlot => if d.slot = none then some { d with slot := some none } else none
  | .boot n instanceID names loaded => d.onWorld (.boot n cfg instanceID names loaded)
  | .crash n => (d.onWorld (.crash n)).map fun d => d.setReader n {}
  | .findSlot n =>
    if (d.world.nodes n).isSome ∧ (d.readers n).point = .offline ∧ d.slot.isSome then
      some (d.setReader n { d.readers n with point := .slotReady })
    else none
  | .createSlot n written ok =>
    if (d.world.nodes n).isSome ∧ (d.readers n).point = .offline ∧ d.slot = none ∧ (ok → written) then
      let d := if written then { d with slot := some (some d.published) } else d
      some (if ok then d.setReader n { d.readers n with slotCreated := true, point := .slotReady } else d)
    else none
  | .startReplication n ok =>
    if (d.world.nodes n).isSome ∧ (d.readers n).point = .slotReady then
      some (d.setReader n (if ok then { (d.readers n).streamStarted with point := .replicating }
        else { d.readers n with point := .offline }))
    else none
  | .enqueueAll n r ok =>
    if (d.readers n).pending then
      let d := d.setReader n { d.readers n with pending := false }
      if ok then d.onWorld (.node n (.request r .enqueueAll d.published)) else some d
    else none
  | .node n a =>
    if d.Allows n a then (d.onWorld (.node n a)).map fun d => d.setReader n (afterNode (d.readers n) a) else none

/-- The process created the slot, and has not written the rows of its tables. -/
def Owes (d : Deployment N V) (n : N) : Prop :=
  (d.readers n).slotCreated = true ∧ ((d.readers n).fired = false ∨ (d.readers n).pending = true ∨
    ∃ node r request, d.world.nodes n = some node ∧ node.requests r = some request ∧ request.kind = .enqueueAll ∧
      request.marked = false)

/-- The calls that matter succeed: the server's answer to the creation of the
slot arrives, `EnqueueAll` gets its tables, and `MarkPending` is written. And a
process that still owes its tables does not crash, and no other process starts
replication before it; one that is refused may try. -/
def Safe (d : Deployment N V) : DeploymentAct N V → Prop
  | .createSlot _ written ok => written = true → ok = true
  | .crash n => ¬ d.Owes n
  | .startReplication n ok => ok = true → ∀ m, m ≠ n → ¬ d.Owes m
  | .enqueueAll _ _ ok => ok = true
  | .node _ (.mark _ written) => written = true
  | _ => True

/-- The table has a row, or the process knows about it. -/
def Covered (d : Deployment N V) (node : Node V) (ref : TableRef) : Prop :=
  ref.string ∈ d.world.shared.store ∨ ref ∈ node.coordinator.queue ∨ ref ∈ node.coordinator.running ∨
    (∃ ts, node.coordinator.state.lookup ref.string = some ts ∧ ts.done = true) ∨
    (node.coordinator.status.lookup ref.string).bind (·.state) = some .done

end Deployment

/-! ## Rows are there before a table is scheduled -/

/-- The tables that a node knows have rows. -/
structure Node.Rowed (store : StateMap) (node : Node V) : Prop where
  queue : ∀ ref ∈ node.coordinator.queue, ref.string ∈ store
  running : ∀ ref ∈ node.coordinator.running, ref.string ∈ store
  state : ∀ name, name ∈ node.coordinator.state → name ∈ store
  lanes : ∀ l run, node.lanes l = .running run → run.ref.string ∈ store
  marked : ∀ r request, node.requests r = some request → request.marked = true → ∀ ref ∈ request.tables, ref.string ∈ store

theorem Node.Rowed.mono {store store' : StateMap} {node : Node V} (hn : node.Rowed store)
    (hstore : ∀ name, name ∈ store → name ∈ store') : node.Rowed store' where
  queue ref href := hstore _ (hn.queue ref href)
  running ref href := hstore _ (hn.running ref href)
  state name hname := hstore _ (hn.state name hname)
  lanes l run hrun := hstore _ (hn.lanes l run hrun)
  marked r request hrequest hmarked ref href := hstore _ (hn.marked r request hrequest hmarked ref href)

section Rows

variable [ToString V] {w w' : Shared V} {node node' : Node V}

/-- A row that is there stays. -/
theorem Node.step_store {a : NodeAct V} (hstep : node.step w a = some (w', node')) {name : String} (hname : name ∈ w.store) :
    name ∈ w'.store := by
  rcases Node.step_shared hstep with ⟨-, hstore⟩ | ⟨l, run, ts, written, -, -, -, -, hstore⟩ | ⟨r, written, request, -, -, rfl⟩
  · rwa [hstore]
  · rw [hstore, AList.mem_insert]
    exact .inr hname
  · rw [← AList.lookup_isSome] at hname ⊢
    simp only [Shared.markPending, if_true, lookup_markPending]
    split
    · rfl
    · exact hname

/-- A written `MarkPending` gives the tables rows. -/
theorem Node.step_pending {r : ℕ} {request : Request} (hrequest : node.requests r = some request)
    (hstep : node.step w (.mark r true) = some (w', node')) : ∀ ref ∈ request.tables, ref.string ∈ w'.store := by
  intro ref href
  simp only [Node.step, hrequest] at hstep
  split at hstep
  · cases hstep
  · cases hstep
    rw [← AList.lookup_isSome]
    simp only [Shared.markPending, if_true, lookup_markPending]
    rw [if_pos (List.mem_map_of_mem href)]
    rfl

theorem Node.Rowed.step (hn : node.Rowed w.store) {a : NodeAct V} (ha : ∀ r written, a = .mark r written → written = true)
    (hstep : node.step w a = some (w', node')) : node'.Rowed w'.store := by
  have hkept := hn.mono fun name hname => Node.step_store hstep hname
  refine ⟨?_, ?_, fun name hname => ?_, fun l run hrun => ?_, fun r request hrequest hmarked => ?_⟩
  · cases Node.step_schedules hstep with
    | same hqueue => rw [hqueue]; exact hkept.queue
    | pop l ref _ hqueue => exact fun ref' href' => hkept.queue ref' (by simp [hqueue, href'])
    | finish l ref _ hqueue => rw [hqueue]; exact hkept.queue
    | grant r request hrequest hmarked hcoordinator =>
      intro ref href
      rw [hcoordinator] at href
      rcases grant_queue _ _ _ ref href with href | href
      · exact hkept.queue ref href
      · exact hkept.marked r request hrequest hmarked ref href
  · cases Node.step_schedules hstep with
    | same _ hrunning => rw [hrunning]; exact hkept.running
    | pop l ref _ hqueue hrunning =>
      intro ref' href'
      rw [hrunning, List.mem_insert_iff] at href'
      rcases href' with rfl | href'
      · exact hkept.queue ref' (by simp [hqueue])
      · exact hkept.running ref' href'
    | finish l ref _ _ hrunning =>
      intro ref' href'
      rw [hrunning] at href'
      exact hkept.running ref' (List.mem_of_mem_erase href')
    | grant r request _ _ hcoordinator =>
      rw [hcoordinator, grant_running]
      exact hkept.running
  · obtain ⟨ts, hts⟩ := Option.isSome_iff_exists.mp (AList.lookup_isSome.mpr hname)
    rcases Node.step_state hstep name ts hts with hold | ⟨l, run, -, hrun, rfl, -⟩
    · exact hkept.state name (mem_of_lookup hold)
    · exact hkept.lanes l run hrun
  · rcases Node.step_running hstep hrun with ⟨run₀, hrun₀, href⟩ | href
    · rw [href]
      exact hkept.lanes l run₀ hrun₀
    · exact hkept.queue run.ref href
  · rcases Node.step_requests hstep hrequest with hold | ⟨request', written, rfl, hold, rfl⟩ | ⟨kind, tables, rfl, rfl⟩
    · exact hkept.marked r request hold hmarked
    · obtain rfl := ha r written rfl
      exact fun ref href => Node.step_pending hold hstep ref href
    · cases hmarked

/-- Only a new session sets `streaming`. -/
theorem Node.step_streaming {a : NodeAct V} (hstep : node.step w a = some (w', node')) (hup : ∀ pos, a ≠ .stream (.up pos))
    (hstreaming : node'.coordinator.streaming = true) : node.coordinator.streaming = true ∧ a ≠ .stream .down := by
  cases Node.steps_of_step hstep with
  | @stream a _ _ _ _ hcall =>
    refine ⟨Process.step_streaming hcall (fun pos heq => ?_) hstreaming, ?_⟩
    · cases a with
      | up pos' => exact hup pos' rfl
      | _ => cases heq
    · rintro ⟨⟩
      cases Process.steps_of_step hcall
      simp only [Node.coordinator, Coordinator.onStreamStop] at hstreaming
      split at hstreaming <;> cases hstreaming
  | run _ hstep => exact ⟨(Steady.runStep hstep).streaming hstreaming, by simp⟩
  | @grant r request =>
    have hsame := (Coordinator.foldl_chunks (Coordinator.grantTable_chunks request.kind) request.tables node.coordinator).streaming
    exact ⟨hsame.symm.trans hstreaming, by simp⟩
  | _ => exact ⟨hstreaming, by simp⟩

theorem Node.step_request {r : ℕ} {kind : RequestKind} {tables : List TableRef}
    (hstep : node.step w (.request r kind tables) = some (w', node')) :
    node'.requests r = some { kind, tables := node.coordinator.candidates kind tables } := by
  cases Node.steps_of_step hstep
  exact Function.update_self _ _ _

/-- A request that is not marked yet is there until it is. -/
theorem Node.step_unmarked {a : NodeAct V} (hstep : node.step w a = some (w', node')) {r : ℕ} {request : Request}
    (hrequest : node.requests r = some request) (hmarked : request.marked = false) :
    node'.requests r = some request ∨ ∃ written, a = .mark r written := by
  cases Node.steps_of_step hstep with
  | run _ hstep => exact .inl (by rwa [hstep.requests])
  | @request r' _ _ hfree =>
    have hr : r ≠ r' := by
      rintro rfl
      rw [hfree] at hrequest
      cases hrequest
    exact .inl (by simpa only [Node.setRequest, Function.update_of_ne hr] using hrequest)
  | @mark r' written =>
    by_cases hr : r = r'
    · subst hr
      exact .inr ⟨written, rfl⟩
    · exact .inl (by simpa only [Node.setRequest, Function.update_of_ne hr] using hrequest)
  | @grant r' request' hrequest' hmarked' =>
    have hr : r ≠ r' := by
      rintro rfl
      rw [hrequest] at hrequest'
      cases hrequest'
      rw [hmarked] at hmarked'
      cases hmarked'
    exact .inl (by simpa only [Node.setRequest, Node.keep, Function.update_of_ne hr] using hrequest)
  | _ => exact .inl hrequest

end Rows

/-- `Start` queues tables that have rows. -/
theorem startTables_rows (store : StateMap) (names : List String) (c : Coordinator V) (hstate : c.state = store)
    (hqueue : ∀ ref ∈ c.queue, ref.string ∈ store) :
    ∀ ref ∈ (names.foldl Coordinator.startTable c).queue, ref.string ∈ store := by
  induction names generalizing c with
  | nil => exact hqueue
  | cons name names ih =>
    refine ih _ ((c.startTable_tables name).1.trans hstate) fun ref href => ?_
    rcases (startTable_schedule c name).2 with hsame | ⟨ref', hsplit, hname, hnew⟩
    · exact hqueue ref (by rwa [hsame] at href)
    · rw [hnew, List.mem_append, List.mem_singleton] at href
      rcases href with href | rfl
      · exact hqueue ref href
      · rwa [(splitTableName_spec hsplit).2, ← hstate]

theorem startTables_running (names : List String) (c : Coordinator V) :
    (names.foldl Coordinator.startTable c).running = c.running := by
  induction names generalizing c with
  | nil => rfl
  | cons name names ih => exact (ih _).trans (startTable_schedule c name).1

theorem rowed_start (cfg : Config) (instanceID : String) (store : StateMap) (names : List String) (loaded : Bool) :
    (startNode cfg instanceID store names loaded : Node V).Rowed store := by
  have hlanes : ∀ l run, (startNode cfg instanceID store names loaded : Node V).lanes l = .running run → run.ref.string ∈ store :=
    fun l run hrun => absurd hrun ((startNode_idle cfg instanceID store names loaded).2 l run)
  have hrequests : ∀ r request, (startNode cfg instanceID store names loaded : Node V).requests r = some request →
      request.marked = true → ∀ ref ∈ request.tables, ref.string ∈ store := fun r request hrequest => by cases hrequest
  cases loaded with
  | false =>
    exact ⟨fun ref href => (by cases href), fun ref href => (by cases href), fun name hname => (by cases hname), hlanes, hrequests⟩
  | true =>
    let c : Coordinator V := { newCoordinator cfg instanceID with state := store }
    have hrunning : (names.foldl Coordinator.startTable c).running = [] := startTables_running names c
    have hstate : (names.foldl Coordinator.startTable c).state = store :=
      (startTables_tables names c fun ref href => by cases href).1
    refine ⟨startTables_rows store names c rfl (fun ref href => by cases href), fun ref href => ?_, fun name hname => ?_, hlanes,
      hrequests⟩
    · change ref ∈ (names.foldl Coordinator.startTable c).running at href
      rw [hrunning] at href
      cases href
    · change name ∈ (names.foldl Coordinator.startTable c).state at hname
      rwa [hstate] at hname

namespace Deployment

variable {N : Type} [DecidableEq N]

/-- The tables that the configuration backfills. -/
def backfills (cfg : Config) (ref : TableRef) : Bool :=
  let c : Coordinator ℕ := newCoordinator cfg ""
  ¬ c.isExcluded ref ∧ c.wanted ref

theorem backfills_iff {cfg : Config} {c : Coordinator V} (hc : c.cfg = (newCoordinator cfg "" : Coordinator V).cfg)
    (ref : TableRef) : backfills cfg ref = true ↔ c.isExcluded ref = false ∧ c.wanted ref = true := by
  simp only [backfills, Coordinator.isExcluded, Coordinator.wanted, hc, newCoordinator]
  simp

/-- The initial tables have rows. -/
def Rows (cfg : Config) (d : Deployment N V) (tables : List TableRef) : Prop :=
  ∀ ref ∈ tables, backfills cfg ref = true → ref.string ∈ d.world.shared.store

/-- The initial tables have rows, or a process still owes them, which then is the
only one that may stream. -/
structure Ok (cfg : Config) (d : Deployment N V) : Prop where
  config : ∀ n node, d.world.nodes n = some node → node.coordinator.cfg = (newCoordinator cfg "" : Coordinator V).cfg
  rowed : ∀ n node, d.world.nodes n = some node → node.Rowed d.world.shared.store
  published : ∀ tables, d.slot = some (some tables) → tables ⊆ d.published
  asked : ∀ tables, d.slot = some (some tables) → ∀ n node r request, d.world.nodes n = some node →
    node.requests r = some request → request.kind = .enqueueAll → ∀ ref ∈ tables, backfills cfg ref = true →
      ref ∈ request.tables ∨ ref.string ∈ d.world.shared.store
  owed : ∀ tables, d.slot = some (some tables) → d.Rows cfg tables ∨ ∃ n, d.Owes n
  replicating : ∀ tables, d.slot = some (some tables) → ∀ n, (d.readers n).point = .replicating →
    d.Rows cfg tables ∨ d.Owes n
  fired : ∀ n, (d.readers n).slotCreated = true → (d.readers n).point = .replicating → (d.readers n).fired = true
  streaming : ∀ n node, d.world.nodes n = some node → node.coordinator.streaming = true → (d.readers n).point = .replicating
  unasked : d.slot = none → ∀ n, d.readers n = {} ∧ ∀ node r request, d.world.nodes n = some node →
    node.requests r = some request → request.kind ≠ .enqueueAll

omit [DecidableEq N] in
theorem ok_start (cfg : Config) (shared : Shared V) (published : List TableRef) :
    Ok cfg ({ world := { shared }, published } : Deployment N V) where
  config n node hn := by cases hn
  rowed n node hn := by cases hn
  published tables hslot := by cases hslot
  asked tables hslot := by cases hslot
  owed tables hslot := by cases hslot
  replicating tables hslot := by cases hslot
  fired n hcreated := by cases hcreated
  streaming n node hn := by cases hn
  unasked _ n := ⟨rfl, fun node r request hn => by cases hn⟩

omit [DecidableEq N] in
/-- What a process owes it still owes, if it lost no request and its reader only
moved. -/
theorem Owes.keep {d d' : Deployment N V} {n : N} (h : d.Owes n) (hreader : ∃ point, d'.readers n = { d.readers n with point })
    (hnodes : ∀ node, d.world.nodes n = some node → ∃ node', d'.world.nodes n = some node' ∧
      ∀ r request, node.requests r = some request → request.marked = false → node'.requests r = some request) : d'.Owes n := by
  obtain ⟨point, hreader⟩ := hreader
  obtain ⟨hcreated, hrest⟩ := h
  refine ⟨by rw [hreader]; exact hcreated, ?_⟩
  rw [hreader]
  rcases hrest with hfired | hpending | ⟨node, r, request, hn, hrequest, hkind, hmarked⟩
  · exact .inl hfired
  · exact .inr (.inl hpending)
  · obtain ⟨node', hn', hkept⟩ := hnodes node hn
    exact .inr (.inr ⟨node', r, request, hn', hkept r request hrequest hmarked, hkind, hmarked⟩)

section Steps

variable {cfg : Config} {d d' : Deployment N V}

/-- The nodes and the state table are the same, and one reader moved. -/
theorem Ok.move (hd : Ok cfg d) {n : N} {point : ReaderPoint} (hslot : d.slot ≠ none) (hpoint : point ≠ .replicating)
    (hidle : (d.readers n).point ≠ .replicating) : Ok cfg (d.setReader n { d.readers n with point }) := by
  have hreaders : ∀ m, ∃ point', (d.setReader n { d.readers n with point }).readers m = { d.readers m with point := point' } := by
    intro m
    simp only [setReader, Function.update_apply]
    split
    · rename_i hm
      exact ⟨point, by rw [hm]⟩
    · exact ⟨_, rfl⟩
  have howes : ∀ m, d.Owes m → (d.setReader n { d.readers n with point }).Owes m := fun m h =>
    h.keep (hreaders m) fun node hn => ⟨node, hn, fun _ _ hrequest _ => hrequest⟩
  have hother : ∀ m, ((d.setReader n { d.readers n with point }).readers m).point = .replicating →
      m ≠ n ∧ (d.readers m).point = .replicating := by
    intro m hm
    simp only [setReader, Function.update_apply] at hm
    split at hm
    · exact absurd hm hpoint
    · exact ⟨by assumption, hm⟩
  refine ⟨hd.config, hd.rowed, hd.published, hd.asked, fun tables ht => ?_, fun tables ht m hm => ?_, fun m hcreated hm => ?_,
    fun m node hn hstreaming => ?_, fun h => absurd h hslot⟩
  · rcases hd.owed tables ht with hrows | ⟨m, hm⟩
    · exact .inl hrows
    · exact .inr ⟨m, howes m hm⟩
  · exact (hd.replicating tables ht m (hother m hm).2).imp id (howes m)
  · obtain ⟨hne, hm⟩ := hother m hm
    simp only [setReader, Function.update_of_ne hne] at hcreated ⊢
    exact hd.fired m hcreated hm
  · have hm := hd.streaming m node hn hstreaming
    have hne : m ≠ n := by
      rintro rfl
      exact hidle hm
    simpa only [setReader, Function.update_of_ne hne] using hm

/-- The creation of the slot: from here on its process owes the tables. -/
theorem Ok.create (hd : Ok cfg d) {n : N} (hslot : d.slot = none) :
    Ok cfg (setReader { d with slot := some (some d.published) } n { d.readers n with slotCreated := true, point := .slotReady }) := by
  have hnone := hd.unasked hslot
  have hother : ∀ m, m ≠ n → (setReader { d with slot := some (some d.published) } n
      { d.readers n with slotCreated := true, point := .slotReady }).readers m = {} := by
    intro m hm
    simp only [setReader, Function.update_of_ne hm]
    exact (hnone m).1
  have hself : (setReader { d with slot := some (some d.published) } n
      { d.readers n with slotCreated := true, point := .slotReady }).readers n = { slotCreated := true, point := .slotReady } := by
    simp only [setReader, Function.update_self, (hnone n).1]
  refine ⟨hd.config, hd.rowed, ?_, ?_, fun tables _ => .inr ⟨n, ?_, .inl ?_⟩, fun tables _ m hm => ?_, fun m _ hm => ?_, ?_, ?_⟩
  · intro tables ht
    cases ht
    exact fun _ h => h
  · intro tables _ m node r request hm hrequest hkind
    exact absurd hkind ((hnone m).2 node r request hm hrequest)
  · rw [hself]
  · rw [hself]
  · by_cases hmn : m = n
    · rw [hmn, hself] at hm
      cases hm
    · rw [hother m hmn] at hm
      cases hm
  · by_cases hmn : m = n
    · rw [hmn, hself] at hm
      cases hm
    · rw [hother m hmn] at hm
      cases hm
  · intro m node hm hstreaming
    have hpoint := hd.streaming m node hm hstreaming
    rw [(hnone m).1] at hpoint
    cases hpoint
  · intro hslot'
    cases hslot'

/-- Replication starts, and the hook is called. -/
theorem Ok.start (hd : Ok cfg d) {n : N} (hslot : d.slot ≠ none) (hothers : ∀ m, m ≠ n → ¬ d.Owes m) :
    Ok cfg (d.setReader n { (d.readers n).streamStarted with point := .replicating }) := by
  let d' := d.setReader n { (d.readers n).streamStarted with point := .replicating }
  have hother : ∀ m, m ≠ n → d'.readers m = d.readers m := fun m hm => Function.update_of_ne hm _ _
  have hself : d'.readers n = { (d.readers n).streamStarted with point := .replicating } := Function.update_self _ _ _
  have hfired : (d'.readers n).slotCreated = true → (d'.readers n).fired = true := by
    rw [hself]
    unfold Reader.streamStarted
    split
    · rename_i hcreated
      intro h
      rw [hcreated] at h
      cases h
    · split
      · rename_i hfired
        exact fun _ => hfired
      · exact fun _ => rfl
  have howes : d.Owes n → d'.Owes n := by
    rintro ⟨hcreated, hrest⟩
    unfold Owes
    rw [hself]
    unfold Reader.streamStarted
    rw [if_neg (by simp [hcreated])]
    split
    · exact ⟨hcreated, hrest⟩
    · exact ⟨hcreated, .inr (.inl rfl)⟩
  have hn : ∀ tables, d.slot = some (some tables) → d'.Rows cfg tables ∨ d'.Owes n := by
    intro tables ht
    rcases hd.owed tables ht with hrows | ⟨m, hm⟩
    · exact .inl hrows
    · by_cases hmn : m = n
      · exact .inr (howes (hmn ▸ hm))
      · exact absurd hm (hothers m hmn)
  refine ⟨hd.config, hd.rowed, hd.published, hd.asked, fun tables ht => (hn tables ht).imp id fun h => ⟨n, h⟩,
    fun tables ht m hm => ?_, fun m hcreated hm => ?_, fun m node hm hstreaming => ?_, fun h => absurd h hslot⟩
  · by_cases hmn : m = n
    · rw [hmn]
      exact hn tables ht
    · have hpoint : (d'.readers m).point = .replicating := hm
      rw [hother m hmn] at hpoint
      rcases hd.replicating tables ht m hpoint with hrows | howed
      · exact .inl hrows
      · exact absurd howed (hothers m hmn)
  · by_cases hmn : m = n
    · subst hmn
      exact hfired hcreated
    · have hcreated' : (d'.readers m).slotCreated = true := hcreated
      have hpoint : (d'.readers m).point = .replicating := hm
      change (d'.readers m).fired = true
      rw [hother m hmn] at hcreated' hpoint ⊢
      exact hd.fired m hcreated' hpoint
  · change (d'.readers m).point = .replicating
    by_cases hmn : m = n
    · rw [hmn, hself]
    · rw [hother m hmn]
      exact hd.streaming m node hm hstreaming

/-- A process starts. -/
theorem Ok.boot (hd : Ok cfg d) {n : N} (hfree : d.world.nodes n = none) {instanceID : String} {names : List String} {loaded : Bool} :
    Ok cfg { d with world := d.world.setNode n (some (startNode cfg instanceID d.world.shared.store names loaded)) } := by
  let new : Node V := startNode cfg instanceID d.world.shared.store names loaded
  let d' : Deployment N V := { d with world := d.world.setNode n (some new) }
  have hnodes : ∀ m node, d'.world.nodes m = some node → m = n ∧ node = new ∨ m ≠ n ∧ d.world.nodes m = some node :=
    fun m node hm => update_node_cases hm
  have howes : ∀ m, d.Owes m → d'.Owes m := by
    refine fun m h => h.keep ⟨_, rfl⟩ fun node hm => ⟨node, ?_, fun _ _ hrequest _ => hrequest⟩
    have hmn : m ≠ n := by
      rintro rfl
      rw [hfree] at hm
      cases hm
    exact (Function.update_of_ne hmn _ _).trans hm
  refine ⟨fun m node hm => ?_, fun m node hm => ?_, hd.published, fun tables ht m node r request hm hrequest => ?_,
    fun tables ht => (hd.owed tables ht).imp id fun h => h.imp howes,
    fun tables ht m hm => (hd.replicating tables ht m hm).imp id (howes m), hd.fired, fun m node hm hup => ?_,
    fun hs m => ⟨(hd.unasked hs m).1, fun node r request hm hrequest => ?_⟩⟩
  · rcases hnodes m node hm with ⟨-, rfl⟩ | ⟨-, hm⟩
    · exact startNode_cfg cfg instanceID d.world.shared.store names loaded
    · exact hd.config m node hm
  · rcases hnodes m node hm with ⟨-, rfl⟩ | ⟨-, hm⟩
    · exact rowed_start cfg instanceID d.world.shared.store names loaded
    · exact hd.rowed m node hm
  · rcases hnodes m node hm with ⟨-, rfl⟩ | ⟨-, hm⟩
    · cases hrequest
    · exact hd.asked tables ht m node r request hm hrequest
  · rcases hnodes m node hm with ⟨-, rfl⟩ | ⟨-, hm⟩
    · rw [(startNode_idle cfg instanceID d.world.shared.store names loaded).1] at hup
      cases hup
    · exact hd.streaming m node hm hup
  · rcases hnodes m node hm with ⟨-, rfl⟩ | ⟨-, hm⟩
    · cases hrequest
    · exact (hd.unasked hs m).2 node r request hm hrequest

/-- A process that owes nothing crashes. -/
theorem Ok.crash (hd : Ok cfg d) {n : N} (hpaid : ¬ d.Owes n) :
    Ok cfg (setReader { d with world := d.world.setNode n none } n {}) := by
  let d' : Deployment N V := setReader { d with world := d.world.setNode n none } n {}
  have hnodes : ∀ m node, d'.world.nodes m = some node → m ≠ n ∧ d.world.nodes m = some node := by
    intro m node hm
    by_cases hmn : m = n
    · subst hmn
      simp [d', setReader, World.setNode] at hm
    · exact ⟨hmn, (Function.update_of_ne hmn _ _).symm.trans hm⟩
  have hreaders : ∀ m, m ≠ n → d'.readers m = d.readers m := fun m hm => Function.update_of_ne hm _ _
  have hself : d'.readers n = {} := Function.update_self _ _ _
  have howes : ∀ m, d.Owes m → d'.Owes m := by
    intro m h
    have hmn : m ≠ n := by
      rintro rfl
      exact hpaid h
    refine h.keep ⟨_, hreaders m hmn⟩ fun node hm => ⟨node, ?_, fun _ _ hrequest _ => hrequest⟩
    exact (Function.update_of_ne hmn _ _).trans hm
  have hpoint : ∀ m, (d'.readers m).point = .replicating → m ≠ n ∧ (d.readers m).point = .replicating := by
    intro m hm
    by_cases hmn : m = n
    · rw [hmn, hself] at hm
      cases hm
    · exact ⟨hmn, hreaders m hmn ▸ hm⟩
  refine ⟨fun m node hm => hd.config m node (hnodes m node hm).2, fun m node hm => hd.rowed m node (hnodes m node hm).2,
    hd.published, fun tables ht m node r request hm => hd.asked tables ht m node r request (hnodes m node hm).2,
    fun tables ht => (hd.owed tables ht).imp id fun h => h.imp howes,
    fun tables ht m hm => (hd.replicating tables ht m (hpoint m hm).2).imp id (howes m), fun m hcreated hm => ?_,
    fun m node hm hup => ?_, fun hs m => ⟨?_, fun node r request hm => (hd.unasked hs m).2 node r request (hnodes m node hm).2⟩⟩
  · obtain ⟨hmn, hm⟩ := hpoint m hm
    have hcreated' : (d'.readers m).slotCreated = true := hcreated
    change (d'.readers m).fired = true
    rw [hreaders m hmn] at hcreated' ⊢
    exact hd.fired m hcreated' hm
  · obtain ⟨hmn, hm⟩ := hnodes m node hm
    change (d'.readers m).point = .replicating
    rw [hreaders m hmn]
    exact hd.streaming m node hm hup
  · change d'.readers m = {}
    by_cases hmn : m = n
    · rw [hmn, hself]
    · rw [hreaders m hmn]
      exact (hd.unasked hs m).1

section Node

variable [ToString V] {n : N} {node node' : Node V} {shared' : Shared V} {a : NodeAct V}

omit [DecidableEq N] [ToString V] in
/-- `EnqueueAll` takes every initial table, or the table has a row. -/
theorem Ok.candidates (hd : Ok cfg d) (hn : d.world.nodes n = some node) {tables : List TableRef}
    (hslot : d.slot = some (some tables)) {ref : TableRef} (href : ref ∈ tables) (hwanted : backfills cfg ref = true) :
    ref ∈ node.coordinator.candidates .enqueueAll d.published ∨ ref.string ∈ d.world.shared.store := by
  obtain ⟨hexcluded, hwanted⟩ := (backfills_iff (hd.config n node hn) ref).mp hwanted
  have hrowed := hd.rowed n node hn
  by_cases hbusy : node.coordinator.busy ref = true
  · simp only [Coordinator.busy, Bool.or_eq_true, List.contains_iff_mem] at hbusy
    rcases hbusy with hmem | hmem
    · exact .inr (hrowed.running ref hmem)
    · exact .inr (hrowed.queue ref hmem)
  · cases hstate : node.coordinator.state.lookup ref.string with
    | some ts => exact .inr (hrowed.state ref.string (mem_of_lookup hstate))
    | none =>
      refine .inl (List.mem_filter.mpr ⟨hd.published tables hslot href, ?_⟩)
      simp [hexcluded, hwanted, hbusy, hstate]

/-- A step of a node, with where its reader is then. -/
theorem Ok.nodeStep (hd : Ok cfg d) (hn : d.world.nodes n = some node) (hstep : node.step d.world.shared a = some (shared', node'))
    {reader' : Reader} (hd' : d' = { d with
      world := { shared := shared', nodes := Function.update d.world.nodes n (some node') }
      readers := Function.update d.readers n reader' })
    (hmark : ∀ r written, a = .mark r written → written = true)
    (hnew : ∀ r tables, a = .request r .enqueueAll tables → tables = d.published ∧ d.slot ≠ none)
    (hcreated : reader'.slotCreated = (d.readers n).slotCreated) (hfired : reader'.fired = (d.readers n).fired)
    (hpoint : reader'.point = .replicating → (d.readers n).point = .replicating)
    (hstreaming : node'.coordinator.streaming = true → reader'.point = .replicating)
    (hnone : d.slot = none → reader' = {})
    (howes : ∀ tables, d.slot = some (some tables) → d.Owes n → d'.Rows cfg tables ∨ d'.Owes n) : Ok cfg d' := by
  have hstore : ∀ name, name ∈ d.world.shared.store → name ∈ d'.world.shared.store := by
    subst hd'
    exact fun name hname => Node.step_store hstep hname
  have hnodes : ∀ m node₁, d'.world.nodes m = some node₁ → m = n ∧ node₁ = node' ∨ m ≠ n ∧ d.world.nodes m = some node₁ := by
    subst hd'
    exact fun m node₁ hm => update_node_cases hm
  have hreaders : ∀ m, m ≠ n → d'.readers m = d.readers m := by
    subst hd'
    exact fun m hm => Function.update_of_ne hm _ _
  have hreader : d'.readers n = reader' := by
    subst hd'
    exact Function.update_self _ _ _
  have hslot : d'.slot = d.slot := by subst hd'; rfl
  have hrows : ∀ tables, d.Rows cfg tables → d'.Rows cfg tables := fun tables h ref href hwanted =>
    hstore _ (h ref href hwanted)
  have hother : ∀ m, m ≠ n → d.Owes m → d'.Owes m := by
    intro m hm h
    refine h.keep ⟨_, hreaders m hm⟩ fun node₁ hm₁ => ⟨node₁, ?_, fun _ _ hrequest _ => hrequest⟩
    subst hd'
    simpa only [Function.update_of_ne hm] using hm₁
  have howed : ∀ tables, d.slot = some (some tables) → ∀ m, d.Owes m → d'.Rows cfg tables ∨ d'.Owes m := by
    intro tables ht m h
    by_cases hm : m = n
    · subst hm
      exact howes tables ht h
    · exact .inr (hother m hm h)
  have hwas : ∀ m, (d'.readers m).point = .replicating → (d.readers m).point = .replicating := by
    intro m hm
    by_cases hmn : m = n
    · rw [hmn, hreader] at hm
      rw [hmn]
      exact hpoint hm
    · rwa [hreaders m hmn] at hm
  refine ⟨fun m node₁ hm => ?_, fun m node₁ hm => ?_, ?_, ?_, fun tables ht => ?_, fun tables ht m hm => ?_,
    fun m hm hrep => ?_, fun m node₁ hm hup => ?_, fun hs m => ?_⟩
  · rcases hnodes m node₁ hm with ⟨rfl, rfl⟩ | ⟨-, hm⟩
    · rw [Node.step_cfg hstep]
      exact hd.config m node hn
    · exact hd.config m node₁ hm
  · rcases hnodes m node₁ hm with ⟨rfl, rfl⟩ | ⟨-, hm⟩
    · subst hd'
      exact (hd.rowed m node hn).step hmark hstep
    · exact (hd.rowed m node₁ hm).mono hstore
  · subst hd'
    exact hd.published
  · intro tables ht m node₁ r request hm hrequest hkind ref href hwanted
    rw [hslot] at ht
    have hold : ∀ request' : Request, node.requests r = some request' → request'.kind = .enqueueAll →
        ref ∈ request'.tables ∨ ref.string ∈ d'.world.shared.store := fun request' hr hk =>
      (hd.asked tables ht n node r request' hn hr hk ref href hwanted).imp id (hstore _)
    rcases hnodes m node₁ hm with ⟨rfl, rfl⟩ | ⟨-, hm⟩
    · rcases Node.step_requests hstep hrequest with hr | ⟨request', written, -, hr, rfl⟩ | ⟨kind, tables', rfl, rfl⟩
      · exact hold request hr hkind
      · exact hold request' hr hkind
      · obtain rfl : kind = .enqueueAll := hkind
        rw [(hnew r tables' rfl).1]
        exact (hd.candidates hn ht href hwanted).imp id (hstore _)
    · exact (hd.asked tables ht m node₁ r request hm hrequest hkind ref href hwanted).imp id (hstore _)
  · rw [hslot] at ht
    rcases hd.owed tables ht with h | ⟨m, h⟩
    · exact .inl (hrows tables h)
    · exact (howed tables ht m h).imp id fun h => ⟨m, h⟩
  · rw [hslot] at ht
    rcases hd.replicating tables ht m (hwas m hm) with h | h
    · exact .inl (hrows tables h)
    · exact howed tables ht m h
  · have hm' := hd.fired m
    by_cases hmn : m = n
    · subst hmn
      rw [hreader] at hm ⊢
      rw [hfired]
      exact hm' (hcreated ▸ hm) (hwas m hrep)
    · rw [hreaders m hmn] at hm ⊢
      exact hm' hm (hwas m hrep)
  · rcases hnodes m node₁ hm with ⟨rfl, rfl⟩ | ⟨hmn, hm⟩
    · rw [hreader]
      exact hstreaming hup
    · rw [hreaders m hmn]
      exact hd.streaming m node₁ hm hup
  · rw [hslot] at hs
    obtain ⟨hempty, hrequests⟩ := hd.unasked hs m
    refine ⟨?_, fun node₁ r request hm hrequest hkind => ?_⟩
    · by_cases hmn : m = n
      · rw [hmn, hreader]
        exact hnone hs
      · rw [hreaders m hmn]
        exact hempty
    · rcases hnodes m node₁ hm with ⟨rfl, rfl⟩ | ⟨-, hm⟩
      · rcases Node.step_requests hstep hrequest with hr | ⟨request', written, -, hr, rfl⟩ | ⟨kind, tables', rfl, rfl⟩
        · exact hrequests node r request hn hr hkind
        · exact hrequests node r request' hn hr hkind
        · obtain rfl : kind = .enqueueAll := hkind
          exact (hnew r tables' rfl).2 hs
      · exact hrequests node₁ r request hm hrequest hkind

/-- The requests of the process's node are all it loses or keeps. -/
theorem Ok.owes_after (hd : Ok cfg d) (hn : d.world.nodes n = some node)
    (hstep : node.step d.world.shared a = some (shared', node')) {reader' : Reader} (hd' : d' = { d with
      world := { shared := shared', nodes := Function.update d.world.nodes n (some node') }
      readers := Function.update d.readers n reader' })
    (hmark : ∀ r written, a = .mark r written → written = true) (hreader : ∃ point, reader' = { d.readers n with point })
    {tables : List TableRef} (hslot : d.slot = some (some tables)) (howes : d.Owes n) : d'.Rows cfg tables ∨ d'.Owes n := by
  by_cases hmarks : ∃ r request written, a = .mark r written ∧ node.requests r = some request ∧ request.kind = .enqueueAll
  · -- the rows are written
    obtain ⟨r, request, written, rfl, hrequest, hkind⟩ := hmarks
    obtain rfl := hmark r written rfl
    refine .inl fun ref href hwanted => ?_
    subst hd'
    rcases hd.asked tables hslot n node r request hn hrequest hkind ref href hwanted with hmem | hmem
    · exact Node.step_pending hrequest hstep ref hmem
    · exact Node.step_store hstep hmem
  · refine .inr ?_
    obtain ⟨point, rfl⟩ := hreader
    obtain ⟨hcreated, hrest⟩ := howes
    subst hd'
    refine ⟨by simpa using hcreated, ?_⟩
    simp only [Function.update_self]
    rcases hrest with hfired | hpending | ⟨node₁, r, request, hn₁, hrequest, hkind, hmarked⟩
    · exact .inl hfired
    · exact .inr (.inl hpending)
    · rw [hn] at hn₁
      cases hn₁
      rcases Node.step_unmarked hstep hrequest hmarked with hkept | ⟨written, rfl⟩
      · exact .inr (.inr ⟨node', r, request, rfl, hkept, hkind, hmarked⟩)
      · exact absurd ⟨r, request, written, rfl, hrequest, hkind⟩ hmarks

theorem onWorld_node {a : NodeAct V} (hstep : d.onWorld (.node n a) = some d') : ∃ node shared' node',
    d.world.nodes n = some node ∧ node.step d.world.shared a = some (shared', node') ∧
      d' = { d with world := { shared := shared', nodes := Function.update d.world.nodes n (some node') } } := by
  obtain ⟨world, hworld, rfl⟩ := Option.map_eq_some_iff.mp hstep
  cases World.steps_of_step hworld with
  | node hn hnode => exact ⟨_, _, _, hn, hnode, rfl⟩

end Node

theorem Ok.enqueueAll [ToString V] (hd : Ok cfg d) {n : N} {r : ℕ} (hstep : d.step cfg (.enqueueAll n r true) = some d') :
    Ok cfg d' := by
  simp only [Deployment.step, Option.ite_none_right_eq_some, if_true] at hstep
  obtain ⟨hpending, hstep⟩ := hstep
  obtain ⟨node, shared', node', hn, hnode, rfl⟩ := onWorld_node hstep
  have hslot : d.slot ≠ none := fun hnone => by
    rw [(hd.unasked hnone n).1] at hpending
    cases hpending
  refine hd.nodeStep hn hnode rfl (fun _ _ heq => by cases heq) (fun _ _ heq => ?_) rfl rfl id (fun h => ?_)
    (fun hnone => absurd hnone hslot) fun tables ht howes => .inr ⟨?_, .inr (.inr ?_)⟩
  · cases heq
    exact ⟨rfl, hslot⟩
  · exact hd.streaming n node hn (Node.step_streaming hnode (fun _ heq => by cases heq) h).1
  · simpa [setReader] using howes.1
  · exact ⟨node', r, _, Function.update_self _ _ _, Node.step_request hnode, rfl, rfl⟩

theorem Ok.onNode [ToString V] (hd : Ok cfg d) {n : N} {a : NodeAct V} (ha : d.Safe (.node n a))
    (hstep : d.step cfg (.node n a) = some d') : Ok cfg d' := by
  simp only [Deployment.step, Option.ite_none_right_eq_some, Option.map_eq_some_iff] at hstep
  obtain ⟨hallows, d₁, hstep, rfl⟩ := hstep
  obtain ⟨node, shared', node', hn, hnode, rfl⟩ := onWorld_node hstep
  have hmark : ∀ r written, a = .mark r written → written = true := fun r written heq => by
    subst heq
    exact ha
  have hreader : ∃ point, afterNode (d.readers n) a = { d.readers n with point } := by
    unfold afterNode
    split
    · exact ⟨_, rfl⟩
    · exact ⟨_, rfl⟩
  obtain ⟨point, hpoint⟩ := hreader
  refine hd.nodeStep hn hnode rfl hmark (fun r tables heq => ?_) (by rw [hpoint]) (by rw [hpoint]) (fun h => ?_) (fun h => ?_)
    (fun hslot => ?_) fun tables hslot howes => hd.owes_after hn hnode rfl hmark ⟨point, hpoint⟩ hslot howes
  · subst heq
    exact absurd rfl hallows
  · unfold afterNode at h
    split at h
    · cases h
    · exact h
  · by_cases hup : ∃ pos, a = .stream (.up pos)
    · obtain ⟨pos, rfl⟩ := hup
      exact hallows
    · obtain ⟨hwas, hdown⟩ := Node.step_streaming hnode (fun pos heq => hup ⟨pos, heq⟩) h
      unfold afterNode
      split
      · exact absurd rfl hdown
      · exact hd.streaming n node hn hwas
  · rw [(hd.unasked hslot n).1]
    unfold afterNode
    split <;> rfl

theorem Ok.step [ToString V] (hd : Ok cfg d) {a : DeploymentAct N V} (ha : d.Safe a) (hstep : d.step cfg a = some d') :
    Ok cfg d' := by
  cases a with
  | commit events =>
    cases hstep
    exact ⟨hd.config, hd.rowed, hd.published, hd.asked, hd.owed, hd.replicating, hd.fired, hd.streaming, hd.unasked⟩
  | foreign content =>
    cases hstep
    exact ⟨hd.config, hd.rowed, hd.published, hd.asked, hd.owed, hd.replicating, hd.fired, hd.streaming, hd.unasked⟩
  | publish ref =>
    cases hstep
    refine ⟨hd.config, hd.rowed, fun tables ht => ?_, hd.asked, hd.owed, hd.replicating, hd.fired, hd.streaming, hd.unasked⟩
    exact List.subset_append_of_subset_left _ (hd.published tables ht)
  | adminSlot =>
    simp only [Deployment.step, Option.ite_none_right_eq_some] at hstep
    cases hstep.2
    exact ⟨hd.config, hd.rowed, fun _ ht => (by cases ht), fun _ ht => (by cases ht), fun _ ht => (by cases ht),
      fun _ ht => (by cases ht), hd.fired, hd.streaming, fun ht => (by cases ht)⟩
  | boot n instanceID names loaded =>
    obtain ⟨world, hworld, rfl⟩ := Option.map_eq_some_iff.mp hstep
    cases World.steps_of_step hworld with
    | boot hdown => exact hd.boot hdown
  | crash n =>
    cases hstep
    exact hd.crash ha
  | findSlot n =>
    simp only [Deployment.step, Option.ite_none_right_eq_some] at hstep
    obtain ⟨⟨-, hoffline, hslot⟩, hstep⟩ := hstep
    cases hstep
    exact hd.move (by rw [← Option.isSome_iff_ne_none]; exact hslot) (by simp) (by simp [hoffline])
  | createSlot n written ok =>
    simp only [Deployment.step, Option.ite_none_right_eq_some] at hstep
    obtain ⟨⟨-, hoffline, hslot, hok⟩, hstep⟩ := hstep
    cases written with
    | false =>
      obtain rfl : ok = false := by simpa using hok
      cases hstep
      exact hd
    | true =>
      obtain rfl : ok = true := ha rfl
      cases hstep
      exact hd.create hslot
  | startReplication n ok =>
    simp only [Deployment.step, Option.ite_none_right_eq_some] at hstep
    obtain ⟨⟨-, hready⟩, hstep⟩ := hstep
    have hslot : d.slot ≠ none := fun hnone => by
      rw [(hd.unasked hnone n).1] at hready
      cases hready
    cases ok with
    | false =>
      cases hstep
      exact hd.move hslot (by simp) (by simp [hready])
    | true =>
      cases hstep
      exact hd.start hslot (ha rfl)
  | enqueueAll n r ok =>
    obtain rfl : ok = true := ha
    exact hd.enqueueAll hstep
  | node n a => exact hd.onNode ha hstep

end Steps

end Deployment

/-- **The initial backfill is not skipped**, in every run in which the calls that
matter succeed and no process crashes or is overtaken while it owes the tables:
whenever a process streams from a slot that GTC created, and no `EnqueueAll` of
it is in progress or to come, every table that was published when the slot was
created, and is to be backfilled, has a row or is known to the process. -/
theorem initial_backfill_kept {N : Type} [DecidableEq N] [ToString V] (cfg : Config) (shared : Shared V) (published : List TableRef)
    {d : Deployment N V} (hd : Reaches (Deployment.step cfg) Deployment.Safe { world := { shared }, published } d) {n : N}
    {node : Node V} (hn : d.world.nodes n = some node) (hstreaming : node.coordinator.streaming = true) {tables : List TableRef}
    (hslot : d.slot = some (some tables)) (hpending : (d.readers n).pending = false)
    (hrequests : ∀ r request, node.requests r = some request → request.kind ≠ .enqueueAll) :
    ∀ ref ∈ tables, node.coordinator.isExcluded ref = false → node.coordinator.wanted ref = true → d.Covered node ref := by
  have hok : Deployment.Ok cfg d :=
    hd.invariant (fun _ _ _ hok ha hstep => hok.step ha hstep) (Deployment.ok_start cfg shared published)
  have hpoint := hok.streaming n node hn hstreaming
  intro ref href hexcluded hwanted
  rcases hok.replicating tables hslot n hpoint with hrows | ⟨hcreated, hrest⟩
  · exact .inl (hrows ref href ((Deployment.backfills_iff (hok.config n node hn) ref).mpr ⟨hexcluded, hwanted⟩))
  · rcases hrest with hfired | hpending' | ⟨node', r, request, hn', hrequest, hkind, -⟩
    · rw [hok.fired n hcreated hpoint] at hfired
      cases hfired
    · rw [hpending] at hpending'
      cases hpending'
    · rw [hn] at hn'
      cases hn'
      exact absurd hkind (hrequests r request hrequest)

/-! ### The requests of a run -/

section Numbered

variable {N : Type} [DecidableEq N]

/-- The requests that the action makes have numbers below `k`. -/
def DeploymentAct.Below (k : ℕ) : DeploymentAct N V → Prop
  | .enqueueAll _ r ok => ok = true → r < k
  | .node _ (.request r _ _) => r < k
  | _ => True

def Deployment.Below (k : ℕ) (d : Deployment N V) : Prop :=
  ∀ n node, d.world.nodes n = some node → ∀ r, k ≤ r → node.requests r = none

theorem Deployment.Below.node [ToString V] {k : ℕ} {d d' : Deployment N V} (hd : d.Below k) {n : N} {a : NodeAct V}
    (ha : ∀ r kind tables, a = .request r kind tables → r < k) (hstep : d.onWorld (.node n a) = some d') : d'.Below k := by
  obtain ⟨node, shared', node', hn, hnode, rfl⟩ := Deployment.onWorld_node hstep
  intro m node₁ hm r hr
  rcases update_node_cases hm with ⟨-, rfl⟩ | ⟨-, hm⟩
  · cases hrequest : node₁.requests r with
    | none => rfl
    | some request =>
      rcases Node.step_requests hnode hrequest with hold | ⟨request', written, -, hold, -⟩ | ⟨kind, tables, rfl, -⟩
      · rw [hd n node hn r hr] at hold
        cases hold
      · rw [hd n node hn r hr] at hold
        cases hold
      · exact absurd (ha r kind tables rfl) (Nat.not_lt.mpr hr)
  · exact hd m node₁ hm r hr

theorem Deployment.Below.step [ToString V] {cfg : Config} {k : ℕ} {d d' : Deployment N V} (hd : d.Below k)
    {a : DeploymentAct N V} (ha : a.Below k) (hstep : d.step cfg a = some d') : d'.Below k := by
  cases a with
  | commit events | foreign content | publish ref =>
    cases hstep
    exact hd
  | adminSlot | findSlot n | startReplication n ok =>
    simp only [Deployment.step, Option.ite_none_right_eq_some] at hstep
    cases hstep.2
    exact hd
  | createSlot n written ok =>
    simp only [Deployment.step, Option.ite_none_right_eq_some] at hstep
    cases hstep.2
    cases written <;> cases ok <;> exact hd
  | boot n instanceID names loaded =>
    obtain ⟨world, hworld, rfl⟩ := Option.map_eq_some_iff.mp hstep
    cases World.steps_of_step hworld with
    | boot =>
      intro m node hm r hr
      rcases update_node_cases hm with ⟨-, rfl⟩ | ⟨-, hm⟩
      · rfl
      · exact hd m node hm r hr
  | crash n =>
    cases hstep
    intro m node hm
    by_cases hmn : m = n
    · subst hmn
      simp [Deployment.setReader, World.setNode] at hm
    · exact hd m node ((Function.update_of_ne hmn _ _).symm.trans hm)
  | enqueueAll n r ok =>
    simp only [Deployment.step, Option.ite_none_right_eq_some] at hstep
    obtain ⟨-, hstep⟩ := hstep
    cases ok with
    | false =>
      cases hstep
      exact hd
    | true =>
      refine Deployment.Below.node (d := d.setReader n _) hd (fun r' kind tables heq => ?_) hstep
      cases heq
      exact ha rfl
  | node n a =>
    simp only [Deployment.step, Option.ite_none_right_eq_some, Option.map_eq_some_iff] at hstep
    obtain ⟨-, d₁, hstep, rfl⟩ := hstep
    have hd₁ : d₁.Below k := by
      refine hd.node (fun r kind tables heq => ?_) hstep
      subst heq
      exact ha
    exact hd₁

/-- What the run did not ask for is not there. -/
theorem Deployment.below_of_runSteps [ToString V] {cfg : Config} (k : ℕ) {shared : Shared V} {published : List TableRef}
    {as : List (DeploymentAct N V)} {d : Deployment N V} (has : ∀ a ∈ as, a.Below k)
    (hd : runSteps (Deployment.step cfg) { world := { shared }, published } as = some d) : d.Below k := by
  have hreach : Reaches (Deployment.step cfg) (fun _ a => a.Below k) { world := { shared }, published } d :=
    reaches_of_runSteps_ok (fun a ha _ => has a ha) hd
  exact hreach.invariant (fun _ _ _ hd ha hstep => hd.step ha hstep) fun n node hn => by cases hn

end Numbered

/-! ### A first start -/

def firstConfig : Config := { slotName := "gtc", chunkSize := 1, lanes := 1 }

/-- One table is published, and there is no slot. -/
def freshDatabase : Deployment Unit ℕ := { world := {}, published := [users] }

def bootsFirst : List (DeploymentAct Unit ℕ) := [.boot () "7f3a" [] true, .createSlot () true true]

/-- The hook runs, and `EnqueueAll` writes the row and queues the table. -/
def initialDone : List (DeploymentAct Unit ℕ) :=
  bootsFirst ++ DeploymentAct.startReplication () true ::
    [.node () (.stream (.up 0)), .enqueueAll () 0 true, .node () (.mark 0 true), .node () (.grant 0)]

theorem initialDone_safe : ∀ d, runSteps (Deployment.step firstConfig) freshDatabase initialDone = some d →
    Reaches (Deployment.step firstConfig) Deployment.Safe freshDatabase d := by
  refine reaches_extend (fun u hu => reaches_of_runSteps_ok ?_ hu) (fun u _ => ?_) ?_
  · intro a ha u
    simp only [bootsFirst, List.mem_cons, List.not_mem_nil, or_false] at ha
    rcases ha with rfl | rfl
    · trivial
    · exact fun _ => rfl
  · exact fun _ m hm => absurd rfl hm
  · intro a ha u
    simp only [List.mem_cons, List.not_mem_nil, or_false] at ha
    rcases ha with rfl | rfl | rfl | rfl <;> trivial

theorem initial_backfill_kept_first : ∃ (d : Deployment Unit ℕ) (node : Node ℕ),
    Reaches (Deployment.step firstConfig) Deployment.Safe freshDatabase d ∧ d.world.nodes () = some node ∧
      node.coordinator.streaming = true ∧ d.slot = some (some [users]) ∧ d.Covered node users := by
  obtain ⟨d, hd⟩ := Option.isSome_iff_exists.mp
    (show (runSteps (Deployment.step firstConfig) freshDatabase initialDone).isSome from by decide +kernel)
  obtain ⟨node, hn⟩ := Option.isSome_iff_exists.mp
    (show (d.world.nodes ()).isSome from runSteps_observe (f := fun d => (d.world.nodes ()).isSome) hd (by decide +kernel))
  have hseen : (d.world.nodes ()).map (fun node => (node.coordinator.streaming, (node.requests 0).isNone,
      node.coordinator.isExcluded users, node.coordinator.wanted users)) = some (true, true, false, true) :=
    runSteps_observe (f := fun d => (d.world.nodes ()).map fun node => (node.coordinator.streaming, (node.requests 0).isNone,
      node.coordinator.isExcluded users, node.coordinator.wanted users)) hd (by decide +kernel)
  rw [hn] at hseen
  simp only [Option.map_some, Option.some.injEq, Prod.mk.injEq, Option.isNone_iff_eq_none] at hseen
  obtain ⟨hstreaming, hgranted, hexcluded, hwanted⟩ := hseen
  have hslot : d.slot = some (some [users]) := runSteps_observe (f := Deployment.slot) hd (by decide +kernel)
  have hpending : (d.readers ()).pending = false := runSteps_observe (f := fun d => (d.readers ()).pending) hd (by decide +kernel)
  have hbelow : d.Below 1 := Deployment.below_of_runSteps 1
    (by simp [initialDone, bootsFirst, DeploymentAct.Below]) hd
  have hnone : ∀ r request, node.requests r = some request → request.kind ≠ .enqueueAll := by
    intro r request hrequest
    rcases Nat.eq_zero_or_pos r with rfl | hr
    · rw [hgranted] at hrequest
      cases hrequest
    · rw [hbelow () node hn r hr] at hrequest
      cases hrequest
  exact ⟨d, node, initialDone_safe d hd, hn, hstreaming, hslot, initial_backfill_kept firstConfig {} [users]
    (initialDone_safe d hd) hn hstreaming hslot hpending hnone users (by simp) hexcluded hwanted⟩

/-- The process crashes when the slot exists and the hook has not run. The next
one finds the slot. -/
def crashesFirst : List (DeploymentAct Unit ℕ) :=
  bootsFirst ++ [DeploymentAct.crash (), .boot () "9c01" [] true, .findSlot (), .startReplication () true, .node () (.stream (.up 0))]

/-- `PublicationTables` fails, which is only logged. -/
def unlistedTables : List (DeploymentAct Unit ℕ) :=
  bootsFirst ++ [DeploymentAct.startReplication () true, .node () (.stream (.up 0)), .enqueueAll () 0 false]

/-- The process streams from a slot that GTC created, has nothing to come, and
does not know the table. -/
def skipsUsers (d : Deployment Unit ℕ) : Bool :=
  match d.world.nodes () with
  | none => false
  | some node =>
    d.slot = some (some [users]) ∧ (d.readers ()).pending = false ∧ users.string ∉ d.world.shared.store ∧
      node.coordinator.streaming = true ∧ node.coordinator.queue = [] ∧ node.coordinator.running = [] ∧
      (node.coordinator.state.lookup users.string).isNone ∧ (node.coordinator.status.lookup users.string).isNone ∧
      node.coordinator.isExcluded users = false ∧ node.coordinator.wanted users = true

/-- The steps lead to a process that streams from the slot GTC created, with no
request in progress or to come, and `users` is not covered. -/
def LeavesUsersOut (as : List (DeploymentAct Unit ℕ)) : Prop :=
  ∃ (d : Deployment Unit ℕ) (node : Node ℕ), runSteps (Deployment.step firstConfig) freshDatabase as = some d ∧
    d.world.nodes () = some node ∧ node.coordinator.streaming = true ∧ d.slot = some (some [users]) ∧
    (d.readers ()).pending = false ∧ (∀ r, node.requests r = none) ∧ node.coordinator.isExcluded users = false ∧
    node.coordinator.wanted users = true ∧ ¬ d.Covered node users

theorem leavesUsersOut_of_skips {as : List (DeploymentAct Unit ℕ)} (has : ∀ a ∈ as, a.Below 0)
    (hskips : (runSteps (Deployment.step firstConfig) freshDatabase as).map skipsUsers = some true) : LeavesUsersOut as := by
  obtain ⟨d, hd, hskips⟩ := Option.map_eq_some_iff.mp hskips
  have hbelow := Deployment.below_of_runSteps 0 has hd
  unfold skipsUsers at hskips
  split at hskips
  · cases hskips
  · rename_i node hn
    simp only [decide_eq_true_eq, Option.isNone_iff_eq_none] at hskips
    obtain ⟨hslot, hpending, hstore, hstreaming, hqueue, hrunning, hstate, hstatus, hexcluded, hwanted⟩ := hskips
    refine ⟨d, node, hd, hn, hstreaming, hslot, hpending, fun r => hbelow () node hn r (Nat.zero_le r), hexcluded, hwanted, ?_⟩
    simp [Deployment.Covered, hstore, hqueue, hrunning, hstate, hstatus]

/-- **A skipped initial backfill**, after a crash and without one. -/
theorem initial_backfill_skipped : LeavesUsersOut crashesFirst ∧ LeavesUsersOut unlistedTables :=
  ⟨leavesUsersOut_of_skips (by simp [crashesFirst, bootsFirst, DeploymentAct.Below]) (by decide +kernel),
    leavesUsersOut_of_skips (by simp [unlistedTables, bootsFirst, DeploymentAct.Below]) (by decide +kernel)⟩

end Gtc.Backfill
