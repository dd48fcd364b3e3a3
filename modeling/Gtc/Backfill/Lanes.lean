/-
The chunks of a node and its lanes, whatever the state table holds.

`Completeness` follows what a persisted cursor says, so it begins with an empty
state table. Here the table is left open: a run may resume from any cursor. What
remains is that the chunks are `Sound`, that the chunk a lane is starting is its
own, and that the chunks of its window were returned to it. `Node.step_process`
says it for every step at once: a step of a node is one step of its process, or
it leaves the chunks as they are.
-/
import Gtc.Backfill.Replay

namespace Gtc.Backfill

open Lib

variable {V : Type} [ToString V]

/-! ## The chunks in a step -/

omit [ToString V] in
/-- Everything about chunks is the same. -/
structure Process.Same (p p' : Process V) : Prop where
  chunks : p.coordinator.SameChunks p'.coordinator
  calls : p'.calls = p.calls
  stream : p'.stream = p.stream

omit [ToString V] in
theorem Process.Same.refl (p : Process V) : p.Same p := ⟨.refl _, rfl, rfl⟩

section Step

variable {db : Database V} {w w' : Shared V} {node node' : Node V} {l : ℕ} {run : Run}

/-- What a step does to the log and the chunks: nothing, or a step of the
process, about no chunk but one that `about` holds of. -/
def Node.OnChunks (db : Database V) (w : Shared V) (node : Node V) (about : ℕ → Prop) (w' : Shared V) (node' : Node V) : Prop :=
  w'.history = w.history ∧ node.process.Same node'.process ∨
    ∃ a, node.process.step w.history a = some (w'.history, node'.process) ∧ (∀ i, a.chunk? = some i → about i) ∧
      node.process.Assumed db w.history a

theorem Node.RunSteps.process {a : LaneAct V} (hstep : RunSteps w node l run a w' node') (hrun : node.lanes l = .running run)
    (hpk : run.point.working = true → run.pkCols = db.primaryKey run.ref) (ha : node.Assumed db w (.lane l a)) :
    node.OnChunks db w (fun i => run.point.chunk? = some i) w' node' := by
  cases hstep with
  | register hpoint hstep => exact .inr ⟨_, hstep, (fun _ hi => by cases hi), hpk (by rw [hpoint]; rfl)⟩
  | emitted hpoint hemit hstep | emitFailed hpoint hemit hstep =>
    refine .inr ⟨_, hstep, fun i hi => ?_, ?_⟩
    · rw [hpoint]
      rcases hemit with rfl | rfl <;> exact hi
    · rcases hemit with rfl | rfl <;> trivial
  | selected hpoint hstep hnote =>
    have hassumed := ha run _ hrun hpoint
    obtain ⟨firsts, selected, -, rfl, rfl⟩ := Node.noteSelect_eq hnote
    exact .inr ⟨_, hstep, (fun i hi => by rw [hpoint]; exact hi), hassumed⟩
  | selectFailed hpoint hstep | publish hpoint hstep | fail hpoint hstep =>
    exact .inr ⟨_, hstep, (fun i hi => by rw [hpoint]; exact hi), trivial⟩
  | restart _ _ _ hstep | leave _ hstep => exact .inr ⟨_, hstep, (fun _ hi => by cases hi), trivial⟩
  | @save ts written hpoint => exact .inl ⟨by cases written <;> rfl, .refl _⟩
  | _ => exact .inl ⟨rfl, ⟨⟨rfl, rfl, rfl, rfl, rfl, rfl⟩, rfl, rfl⟩⟩

/-- **A step of a node** is one step of its process, or leaves the chunks as they
are. -/
theorem Node.step_process {a : NodeAct V} (hstep : node.step w a = some (w', node'))
    (hpk : ∀ l run, node.lanes l = .running run → run.point.working = true → run.pkCols = db.primaryKey run.ref)
    (ha : node.Assumed db w a) : node.OnChunks db w
      (fun i => ∃ l run, a.moves l ∧ node.lanes l = .running run ∧ run.point.chunk? = some i) w' node' := by
  cases Node.steps_of_step hstep with
  | @stream a _ _ _ _ hcall => exact .inr ⟨_, hcall, (fun i hi => by cases a <;> cases hi), (by cases a <;> trivial)⟩
  | @run l run a _ _ hrun hstep =>
    rcases hstep.process hrun (hpk l run hrun) ha with hsame | ⟨pa, hcall, habout, hassumed⟩
    · exact .inl hsame
    · exact .inr ⟨pa, hcall, fun i hi => ⟨l, run, rfl, hrun, habout i hi⟩, hassumed⟩
  | @mark r written => exact .inl ⟨by cases written <;> rfl, .refl _⟩
  | grant => exact .inl ⟨rfl, ⟨Coordinator.foldl_chunks (Coordinator.grantTable_chunks _) _ _, rfl, rfl⟩⟩
  | _ => exact .inl ⟨rfl, ⟨⟨rfl, rfl, rfl, rfl, rfl, rfl⟩, rfl, rfl⟩⟩

end Step

/-! ## Lanes -/

section Lanes

variable {db : Database V} {h h' : History V} {p p' : Process V} {l : ℕ} {run : Run}

structure LaneOk (db : Database V) (p : Process V) (l : ℕ) (run : Run) : Prop where
  pkCols : run.point.working = true → run.pkCols = db.primaryKey run.ref
  own : ∀ i, run.point.chunk? = some i → p.coordinator.Registered i ∧ (p.calls i).lane = l
  window : ∀ i ∈ run.window, p.coordinator.Registered i ∧ (p.calls i).stage = .returned

omit [ToString V] in
theorem Process.Keeps.returned {i : ℕ} (hk : p.Keeps p' i) (hi : (p.calls i).stage = .returned) :
    p'.coordinator.Registered i ∧ (p'.calls i).stage = .returned := by
  obtain ⟨read, hcall⟩ := hk.call
  rw [hcall]
  exact ⟨hk.registered, hi⟩

theorem LaneOk.keeps (hr : LaneOk db p l run) (hwindow : ∀ i ∈ run.window, p.Keeps p' i)
    (hchunk : ∀ i, run.point.chunk? = some i → p.Keeps p' i) : LaneOk db p' l run where
  pkCols := hr.pkCols
  own i hi := by
    obtain ⟨read, hcall⟩ := (hchunk i hi).call
    rw [hcall]
    exact ⟨(hchunk i hi).registered, (hr.own i hi).2⟩
  window i hi := (hwindow i hi).returned (hr.window i hi).2

/-- A run that is not starting a chunk. -/
theorem LaneOk.idle (hpk : run.point.working = true → run.pkCols = db.primaryKey run.ref) (hchunk : run.point.chunk? = none)
    (hwindow : ∀ i ∈ run.window, p.coordinator.Registered i ∧ (p.calls i).stage = .returned) : LaneOk db p l run where
  pkCols := hpk
  own i hi := by
    rw [hchunk] at hi
    cases hi
  window := hwindow

/-- A call stays with its lane. -/
theorem Process.step_lane {a : ProcessAct V} (hstep : p.step h a = some (h', p')) {i : ℕ} (hi : p.coordinator.Registered i) :
    p'.coordinator.Registered i ∧ (p'.calls i).lane = (p.calls i).lane := by
  by_cases ha : a.chunk? = some i
  · cases Process.steps_of_step hstep with
    | @select _ answer => cases ha; cases answer <;> exact ⟨hi, by simp [Process.select, Process.setCall]⟩
    | emitLow => cases ha; exact ⟨hi, by simp [Process.emitLow, Process.setCall]⟩
    | emitHigh => cases ha; exact ⟨hi, by simp [Process.emitHigh, Process.setCall]⟩
    | publish => cases ha; exact ⟨hi.evolves (p.coordinator.publish_evolves _ _), by simp [Process.publish, Process.setCall]⟩
    | fail => cases ha; exact ⟨hi.evolves (p.coordinator.abandon_evolves _), by simp [Process.fail, Process.setCall]⟩
    | _ => cases ha
  · have hk := Process.step_keeps hstep hi fun hi' => absurd hi' ha
    obtain ⟨read, hcall⟩ := hk.call
    rw [hcall]
    exact ⟨hk.registered, rfl⟩

/-- The lane of a chunk that has just been registered. -/
theorem Process.register_lane {ref : TableRef} {pkCols cursor : List String}
    (hstep : p.step h (.register l ref pkCols cursor) = some (h', p')) :
    p'.coordinator.Registered p'.coordinator.chunkSeq ∧ (p'.calls p'.coordinator.chunkSeq).lane = l := by
  cases Process.steps_of_step hstep
  exact ⟨⟨Nat.le_refl _, Nat.succ_pos _⟩, by simp [Process.register]⟩

variable {w w' : Shared V} {node node' : Node V}

/-- What returned to a lane is kept by every step. -/
theorem Node.OnChunks.keeps {about : ℕ → Prop} (hon : node.OnChunks db w about w' node') {i : ℕ}
    (hi : node.process.coordinator.Registered i) (hkept : about i → (node.process.calls i).stage = .returned) :
    node.process.Keeps node'.process i := by
  rcases hon with ⟨-, hsame⟩ | ⟨a, hstep, habout, -⟩
  · exact .of_eq (hi.evolves hsame.chunks.evolves) (congrFun hsame.calls i) (congrFun hsame.chunks.chunks i)
  · exact Process.step_keeps hstep hi fun ha => hkept (habout i ha)

theorem LaneOk.runStep (hr : LaneOk db node.process l run) {a : LaneAct V} (ha : node.Assumed db w (.lane l a))
    (hrun : node.lanes l = .running run) (hstep : Node.RunSteps w node l run a w' node') {run' : Run}
    (hrun' : node'.lanes l = .running run') : LaneOk db node'.process l run' := by
  have hwindow : ∀ i ∈ run.window, node'.process.coordinator.Registered i ∧ (node'.process.calls i).stage = .returned :=
    fun i hi => ((hstep.process hrun hr.pkCols ha).keeps (hr.window i hi).1 fun _ => (hr.window i hi).2).returned
      (hr.window i hi).2
  cases hstep with
  | @primaryKey answer =>
    obtain rfl := Node.eq_of_setRun hrun'
    cases answer with
    | error err => exact .idle (fun hw => by cases hw) rfl hwindow
    | ok pkCols => exact .idle (fun _ => ha run hrun) (by simp only [Run.primaryKey]; split <;> rfl) hwindow
  | load hpoint | announce hpoint | waitForStream hpoint hup | record hpoint | save hpoint | delay hpoint =>
    obtain rfl := Node.eq_of_setRun hrun'
    exact .idle (fun _ => hr.pkCols (by rw [hpoint]; rfl)) rfl hwindow
  | resume hpoint | restart hpoint =>
    obtain rfl := Node.eq_of_setRun hrun'
    exact .idle (fun _ => hr.pkCols (by rw [hpoint]; rfl)) rfl fun i hi => by cases hi
  | reloadFailed hpoint | notFound hpoint =>
    obtain rfl := Node.eq_of_setRun hrun'
    exact .idle (fun _ => hr.pkCols (by rw [hpoint]; rfl)) rfl hwindow
  | found hpoint =>
    obtain rfl := Node.eq_of_setRun hrun'
    exact .idle (fun _ => hr.pkCols (by rw [hpoint]; rfl)) (by simp only [Run.reloaded]; split <;> rfl) hwindow
  | fill hpoint =>
    obtain rfl := Node.eq_of_setRun hrun'
    exact .idle (fun _ => hr.pkCols (by rw [hpoint]; rfl)) (by simp only [Run.fill]; split <;> rfl) hwindow
  | register hpoint hstep =>
    obtain rfl := Node.eq_of_setRun hrun'
    refine ⟨fun _ => hr.pkCols (by rw [hpoint]; rfl), fun i hi => ?_, hwindow⟩
    cases hi
    exact Process.register_lane hstep
  | emitted hpoint _ hstep | publish hpoint hstep =>
    obtain rfl := Lane.running.inj (hrun.symm.trans hrun')
    refine ⟨hr.pkCols, fun i hi => ?_, hwindow⟩
    obtain ⟨hreg, hlane⟩ := Process.step_lane hstep (hr.own i hi).1
    exact ⟨hreg, hlane.trans (hr.own i hi).2⟩
  | emitFailed hpoint _ hstep | selectFailed hpoint hstep =>
    obtain rfl := Node.eq_of_setRun hrun'
    refine ⟨fun _ => hr.pkCols (by rw [hpoint]; rfl), fun i hi => ?_, hwindow⟩
    cases hi
    obtain ⟨hreg, hlane⟩ := hr.own _ (by rw [hpoint]; rfl)
    obtain ⟨hreg', hlane'⟩ := Process.step_lane hstep hreg
    exact ⟨hreg', hlane'.trans hlane⟩
  | selected hpoint hstep hnote =>
    have hown := fun i (hi : run.point.chunk? = some i) => Process.step_lane hstep (hr.own i hi).1
    obtain ⟨firsts, selected, -, rfl, rfl⟩ := Node.noteSelect_eq hnote
    obtain rfl := Node.eq_of_setRun hrun'
    exact ⟨hr.pkCols, fun i hi => ⟨(hown i hi).1, (hown i hi).2.trans (hr.own i hi).2⟩, hwindow⟩
  | started hpoint hstage =>
    obtain rfl := Node.eq_of_setRun hrun'
    refine .idle (fun _ => hr.pkCols (by rw [hpoint]; rfl)) rfl fun i hi => ?_
    rcases List.mem_append.mp hi with hi | hi
    · exact hwindow i hi
    · rw [List.mem_singleton.mp hi]
      exact ⟨(hr.own _ (by rw [hpoint]; rfl)).1, hstage⟩
  | @done head window hpoint hhead hdone =>
    obtain rfl := Node.eq_of_setRun hrun'
    have hrest : ∀ i ∈ window, i ∈ run.window := fun i hi => by rw [hhead]; exact List.mem_cons_of_mem _ hi
    unfold Run.delivered
    dsimp only
    split <;> exact .idle (fun _ => hr.pkCols (by rw [hpoint]; rfl)) rfl fun i hi => hwindow i (hrest i hi)
  | progressed hpoint =>
    obtain rfl := Node.eq_of_setRun hrun'
    exact .idle (fun _ => hr.pkCols (by rw [hpoint]; rfl)) (by dsimp only; split <;> rfl) hwindow
  | finished | stopped | failed => simp [Node.setLane] at hrun'
  | _ =>
    obtain rfl := Node.eq_of_setRun hrun'
    exact .idle (fun hw => by cases hw) rfl hwindow

end Lanes

/-! ## Nodes -/

section Nodes

variable {db : Database V} {h h' : History V} {w w' : Shared V} {node node' : Node V}

/-- The chunks of a node are `Sound`, and its lanes know them. -/
structure Orderly (db : Database V) (h : History V) (node : Node V) : Prop where
  sound : Sound db h node.process
  dashFree : '-' ∉ node.coordinator.instanceID.toList
  chunkSize : 0 < node.coordinator.cfg.chunkSize
  runs : ∀ l run, node.lanes l = .running run → LaneOk db node.process l run

theorem Orderly.onChunks (hn : Orderly db w.history node) {a : NodeAct V} (ha : node.Assumed db w a)
    (hstep : node.step w a = some (w', node')) : node.OnChunks db w
      (fun i => ∃ l run, a.moves l ∧ node.lanes l = .running run ∧ run.point.chunk? = some i) w' node' :=
  Node.step_process hstep (fun l run hrun => (hn.runs l run hrun).pkCols) ha

/-- The chunks of the lanes that take no step are kept. -/
theorem Orderly.keeps_other (hn : Orderly db w.history node) {a : NodeAct V} (ha : node.Assumed db w a)
    (hstep : node.step w a = some (w', node')) {l : ℕ} (hl : ¬ a.moves l) {i : ℕ}
    (hi : node.process.coordinator.Registered i) (hlane : (node.process.calls i).lane = l) :
    node.process.Keeps node'.process i := by
  refine (hn.onChunks ha hstep).keeps hi fun habout => ?_
  obtain ⟨l', run', hmoves, hrun', hchunk⟩ := habout
  have hlane' := ((hn.runs l' run' hrun').own i hchunk).2
  exact absurd (hlane.symm.trans hlane' ▸ hmoves) hl

theorem Orderly.laneOk (hn : Orderly db w.history node) {a : NodeAct V} (ha : node.Assumed db w a)
    (hstep : node.step w a = some (w', node')) {l : ℕ} {run' : Run} (hrun' : node'.lanes l = .running run') :
    LaneOk db node'.process l run' := by
  by_cases hl : a.moves l
  · cases a with
    | lane l' a =>
      obtain rfl : l = l' := hl
      rcases Node.laneStep_running hstep hrun' with ⟨run, hrun, hstep⟩ | ⟨ref, -, rfl⟩
      · exact (hn.runs l run hrun).runStep ha hrun hstep hrun'
      · exact .idle (fun hw => by cases hw) rfl fun i hi => by cases hi
    | _ => cases hl
  · -- the lane took no step: it keeps the chunk it starts, and its window
    rw [Node.step_lanes hstep hl] at hrun'
    have hr := hn.runs l run' hrun'
    refine hr.keeps (fun i hi => ?_) fun i hi => hn.keeps_other ha hstep hl (hr.own i hi).1 (hr.own i hi).2
    exact (hn.onChunks ha hstep).keeps (hr.window i hi).1 fun _ => (hr.window i hi).2

theorem Orderly.step (hn : Orderly db w.history node) {a : NodeAct V} (ha : node.Assumed db w a)
    (hstep : node.step w a = some (w', node')) : Orderly db w'.history node' := by
  have hon := hn.onChunks ha hstep
  have hruns : ∀ l run, node'.lanes l = .running run → LaneOk db node'.process l run := fun l run hrun =>
    hn.laneOk ha hstep hrun
  rcases hon with ⟨hhistory, hsame⟩ | ⟨pa, hcall, -, hassumed⟩
  · refine ⟨?_, ?_, ?_, hruns⟩
    · have hs := hn.sound.evolves hsame.chunks.evolves hsame.chunks.chunks
      rw [hhistory]
      have hprocess : node'.process = { node.process with coordinator := node'.process.coordinator } := by
        obtain ⟨-, hcalls, hstream⟩ := hsame
        cases hp : node'.process
        rw [hp] at hcalls hstream
        cases hcalls
        cases hstream
        rfl
      rw [hprocess]
      exact hs
    · rw [Node.coordinator, hsame.chunks.instanceID]
      exact hn.dashFree
    · rw [Node.coordinator, hsame.chunks.cfg]
      exact hn.chunkSize
  · have htables := Process.step_tables hcall
    refine ⟨hn.sound.step hassumed hcall, ?_, ?_, hruns⟩
    · rw [Node.coordinator, htables.instanceID]
      exact hn.dashFree
    · rw [Node.coordinator, htables.cfg]
      exact hn.chunkSize

/-- What others add to the log changes nothing for a node. -/
theorem Orderly.extends (hn : Orderly db h node) (hx : h.Extends h')
    (hmarks : ∀ q payload, h.wal.length ≤ q → h'.wal[q]? = some (.mark (some payload)) → ∀ ref i,
      payload.chunk ≠ chunkID node.coordinator.instanceID ref i) : Orderly db h' node :=
  ⟨hn.sound.extends hx hmarks, hn.dashFree, hn.chunkSize, hn.runs⟩

/-- What a node's step adds to the log are watermarks of its own chunks. -/
theorem Orderly.step_marks (hn : Orderly db w.history node) {a : NodeAct V} (ha : node.Assumed db w a)
    (hstep : node.step w a = some (w', node')) : w.history.Extends w'.history ∧
      node'.coordinator.instanceID = node.coordinator.instanceID ∧
      ∀ q payload, w.history.wal.length ≤ q → w'.history.wal[q]? = some (.mark (some payload)) →
        ∃ ref i, payload.chunk = chunkID node.coordinator.instanceID ref i := by
  rcases hn.onChunks ha hstep with ⟨hhistory, hsame⟩ | ⟨pa, hcall, -, -⟩
  · rw [hhistory]
    exact ⟨.refl _, hsame.chunks.instanceID, fun q payload hq hitem => absurd (lt_length hitem) (Nat.not_lt.mpr hq)⟩
  · exact ⟨Process.step_extends hcall, (Process.step_tables hcall).instanceID,
      fun q payload hq hitem => Process.step_marks hn.sound hcall hq hitem⟩

omit [ToString V] in
theorem startNode_sameChunks (cfg : Config) (instanceID : String) (store : StateMap) (names : List String) (loaded : Bool) :
    (newCoordinator cfg instanceID : Coordinator V).SameChunks (startNode cfg instanceID store names loaded).coordinator := by
  cases loaded with
  | false => exact .refl _
  | true =>
    have hloaded : (newCoordinator cfg instanceID : Coordinator V).SameChunks { newCoordinator cfg instanceID with state := store } :=
      ⟨rfl, rfl, rfl, rfl, rfl, rfl⟩
    exact hloaded.trans (Coordinator.foldl_chunks Coordinator.startTable_chunks names _)

/-- A node that has just started, from any state table. -/
theorem orderly_start (cfg : Config) {instanceID : String} (hdash : '-' ∉ instanceID.toList)
    (hmarks : ∀ (q : ℕ) payload, h.wal[q]? = some (.mark (some payload)) → ∀ ref i, payload.chunk ≠ chunkID instanceID ref i)
    (store : StateMap) (names : List String) (loaded : Bool) : Orderly db h (startNode cfg instanceID store names loaded) := by
  have hsame := startNode_sameChunks (V := V) cfg instanceID store names loaded
  refine ⟨(sound_newProcess db cfg hmarks).evolves hsame.evolves hsame.chunks, ?_, ?_, fun l run hrun => ?_⟩
  · rw [hsame.instanceID]
    exact hdash
  · rw [hsame.cfg]
    show 0 < if cfg.chunkSize = 0 then defaultChunkSize else cfg.chunkSize
    split
    · decide
    · exact Nat.pos_of_ne_zero ‹_›
  · exact absurd hrun ((startNode_idle cfg instanceID store names loaded).2 l run)

end Nodes

/-! ## Every run of the nodes -/

section World

variable {N : Type} [DecidableEq N] {db : Database V} {w w' : World N V}

structure WorldOrderly (db : Database V) (w : World N V) : Prop where
  nodes : ∀ n node, w.nodes n = some node → Orderly db w.shared.history node
  instances : ∀ m n node node', m ≠ n → w.nodes m = some node → w.nodes n = some node' →
    node.coordinator.instanceID ≠ node'.coordinator.instanceID

omit [DecidableEq N] in
theorem WorldOrderly.append (hw : WorldOrderly db w) {items : List (Item V)}
    (hitems : ∀ payload, Item.mark (some payload) ∈ items → ∀ n node, w.nodes n = some node → ∀ ref i,
      payload.chunk ≠ chunkID node.coordinator.instanceID ref i) :
    WorldOrderly db (w.onHistory { w.shared.history with wal := w.shared.history.wal ++ items }) where
  nodes n node hn := by
    refine (hw.nodes n node hn).extends (.append w.shared.history items) fun q payload hq hitem ref i => ?_
    replace hitem : (w.shared.history.wal ++ items)[q]? = some (.mark (some payload)) := hitem
    rw [List.getElem?_append_right hq] at hitem
    exact hitems payload (List.mem_of_getElem? hitem) n node hn ref i
  instances := hw.instances

/-- One node is replaced, and the others see a log that has grown by none of
their watermarks. -/
theorem WorldOrderly.update (hw : WorldOrderly db w) {n : N} {node : Option (Node V)} {shared : Shared V}
    (hothers : ∀ m node', m ≠ n → w.nodes m = some node' → Orderly db shared.history node')
    (hnode : ∀ node', node = some node' → Orderly db shared.history node' ∧
      ∀ m node'', m ≠ n → w.nodes m = some node'' → node''.coordinator.instanceID ≠ node'.coordinator.instanceID) :
    WorldOrderly db { shared, nodes := Function.update w.nodes n node } where
  nodes m node' hm := by
    by_cases hmn : m = n
    · subst hmn
      simp only [Function.update_self] at hm
      exact (hnode node' hm).1
    · simp only [Function.update_of_ne hmn] at hm
      exact hothers m node' hmn hm
  instances m m' a b hne ha hb := by
    by_cases hmn : m = n
    · subst hmn
      simp only [Function.update_self] at ha
      simp only [Function.update_of_ne (Ne.symm hne)] at hb
      exact Ne.symm ((hnode a ha).2 m' b (Ne.symm hne) hb)
    · simp only [Function.update_of_ne hmn] at ha
      by_cases hmn' : m' = n
      · subst hmn'
        simp only [Function.update_self] at hb
        exact (hnode b hb).2 m a hmn ha
      · simp only [Function.update_of_ne hmn'] at hb
        exact hw.instances m m' a b hne ha hb

theorem WorldOrderly.step (hw : WorldOrderly db w) {a : WorldAct N V} (ha : w.Assumed db a) (hstep : w.step a = some w') :
    WorldOrderly db w' := by
  cases World.steps_of_step hstep with
  | commit => exact hw.append fun payload hmem => by simp at hmem
  | foreign => exact hw.append fun payload hmem => ha payload (by simpa [eq_comm] using hmem)
  | @boot n cfg instanceID names loaded =>
    obtain ⟨hdash, hinstance, hmarks⟩ := ha
    refine hw.update (fun m node' _ hm => hw.nodes m node' hm) fun node' hnode => ?_
    cases hnode
    refine ⟨orderly_start cfg hdash hmarks _ names loaded, fun m node'' _ hm => ?_⟩
    rw [(startNode_sameChunks cfg instanceID w.shared.store names loaded).instanceID]
    exact hinstance m node'' hm
  | crash => exact hw.update (fun m node' _ hm => hw.nodes m node' hm) fun node' hnode => by cases hnode
  | @node n _ node _ _ hn hnode =>
    have hok := hw.nodes n node hn
    obtain ⟨hgrows, hinstance, hmarks⟩ := hok.step_marks (ha node hn) hnode
    refine hw.update (fun m node'' hmn hm => ?_) fun node'' heq => ?_
    · refine (hw.nodes m node'' hm).extends hgrows fun q payload hq hitem ref i hid => ?_
      obtain ⟨ref', i', hid'⟩ := hmarks q payload hq hitem
      exact hw.instances n m node node'' (Ne.symm hmn) hn hm
        (chunkID_instance_inj hok.dashFree (hw.nodes m node'' hm).dashFree (hid'.symm.trans hid))
    · cases heq
      refine ⟨hok.step (ha node hn) hnode, fun m node'' hmn hm => ?_⟩
      rw [hinstance]
      exact hw.instances m n node'' node hmn hm hn

end World

end Gtc.Backfill
