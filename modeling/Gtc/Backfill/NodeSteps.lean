/-
The steps of a lane, of a node and of the nodes together as relations: one
constructor for each way a step can go, with the point a run must be at and what
the step asks of the coordinator or the database. Every fact about lanes and
nodes starts from these cases.
-/
import Gtc.Backfill.Nodes

namespace Gtc.Backfill

variable {V : Type}

namespace Node

theorem setRun_lane (node : Node V) (l : ℕ) (run : Run) : (node.setRun l run).lanes l = .running run :=
  Function.update_self ..

variable {node node' : Node V} {run run' : Run} {w w' : Shared V} {a : LaneAct V}

theorem eq_of_setRun {l : ℕ} (h : (node.setRun l run).lanes l = .running run') : run' = run :=
  Lane.running.inj (h.symm.trans (setRun_lane node l run))

/-- The steps of a run, with what makes each possible. -/
inductive RunSteps [ToString V] (w : Shared V) (node : Node V) (l : ℕ) (run : Run) : LaneAct V → Shared V → Node V → Prop
  | primaryKey {answer : Except String (List String)} (hpoint : run.point = .primaryKey) :
    RunSteps w node l run (.primaryKey answer) w (node.setRun l (run.primaryKey answer))
  | skip (hpoint : run.point = .skip) :
    RunSteps w node l run .skip w ((node.keep (node.coordinator.setStatus run.ref fun s =>
      { s with state := some .skipped, error := "no primary key" })).setRun l { run with point := .leave none })
  | load {ok : Bool} (hpoint : run.point = .load) :
    RunSteps w node l run (.load ok) w
      (node.setRun l { run with point := .loaded (if ok then some (w.store.lookup run.ref.string) else none) })
  | reloadFailed (hpoint : run.point = .loaded none) :
    RunSteps w node l run .loaded w ((node.keep node.coordinator).setRun l (run.reloaded none))
  | notFound (hpoint : run.point = .loaded (some none)) :
    RunSteps w node l run .loaded w ((node.keep (node.coordinator.forget run.ref.string)).setRun l (run.reloaded (some none)))
  | found {ts : TableState} (hpoint : run.point = .loaded (some (some ts))) :
    RunSteps w node l run .loaded w
      ((node.keep (node.coordinator.setState run.ref.string ts)).setRun l (run.reloaded (some (some ts))))
  | already {ts : TableState} (hpoint : run.point = .already ts) :
    RunSteps w node l run .already w ((node.keep (node.coordinator.setStatus run.ref fun s =>
      { s with state := some .done, rowsCopied := ts.rowsCopied, error := "" })).setRun l { run with point := .leave none })
  | resume (hpoint : run.point = .resume) :
    RunSteps w node l run .resume w
      (node.setRun l (run.resume ((node.coordinator.state.lookup run.ref.string).getD {})))
  | announce (hpoint : run.point = .announce) :
    RunSteps w node l run .announce w ((node.keep (node.coordinator.setStatus run.ref fun s =>
      { s with state := some .running, rowsCopied := run.copied, error := "" })).setRun l { run with point := .fill })
  | fill (hpoint : run.point = .fill) : RunSteps w node l run .fill w (node.setRun l run.fill)
  | waitForStream (hpoint : run.point = .waitForStream) (hup : node.coordinator.streaming = true) :
    RunSteps w node l run .waitForStream w (node.setRun l { run with point := .register })
  | register {h : History V} {p : Process V} (hpoint : run.point = .register)
    (hstep : node.process.step w.history (.register l run.ref run.pkCols run.next) = some (h, p)) :
    RunSteps w node l run .register { w with history := h }
      (setRun { node with process := p } l { run with point := .starting p.coordinator.chunkSeq })
  | emitted {i : ℕ} {a : ProcessAct V} {written : Bool} {h : History V} {p : Process V} (hpoint : run.point = .starting i)
    (ha : a = .emitLow i written true ∨ a = .emitHigh i written true) (hstep : node.process.step w.history a = some (h, p)) :
    RunSteps w node l run (.emit written none) { w with history := h } { node with process := p }
  | emitFailed {i : ℕ} {a : ProcessAct V} {written : Bool} {err err' : String} {h : History V} {p : Process V}
    (hpoint : run.point = .starting i) (ha : a = .emitLow i written false ∨ a = .emitHigh i written false)
    (hstep : node.process.step w.history a = some (h, p)) :
    RunSteps w node l run (.emit written (some err)) { w with history := h }
      (setRun { node with process := p } l { run with point := .abandoning i err' })
  | selected {i snapshot : ℕ} {chunk : Chunk V} {h : History V} {p : Process V} (hpoint : run.point = .starting i)
    (hstep : node.process.step w.history (.select i (some (snapshot, chunk))) = some (h, p)) {w' : Shared V} {node' : Node V}
    (hnote : ((setRun { node with process := p } l (run.selected ((p.calls i).low.getD 0) snapshot)).noteSelect
      { w with history := h } run.ref run.next) = (w', node')) :
    RunSteps w node l run (.select (.ok (snapshot, chunk))) w' node'
  | selectFailed {i : ℕ} {err : String} {h : History V} {p : Process V} (hpoint : run.point = .starting i)
    (hstep : node.process.step w.history (.select i none) = some (h, p)) :
    RunSteps w node l run (.select (.error err)) { w with history := h }
      (setRun { node with process := p } l { run with point := .abandoning i err })
  | publish {i : ℕ} {h : History V} {p : Process V} (hpoint : run.point = .starting i)
    (hstep : node.process.step w.history (.publish i) = some (h, p)) :
    RunSteps w node l run .publish { w with history := h } { node with process := p }
  | started {i : ℕ} (hpoint : run.point = .starting i) (hstage : (node.process.calls i).stage = .returned) :
    RunSteps w node l run .started w
      (node.setRun l (run.started node.coordinator.cfg.chunkSize i (node.process.chunk i)))
  | fail {i : ℕ} {err : String} {h : History V} {p : Process V} (hpoint : run.point = .abandoning i err)
    (hstep : node.process.step w.history (.fail i) = some (h, p)) :
    RunSteps w node l run .fail { w with history := h }
      (setRun { node with process := p } l { run with point := .leave (some err) })
  | restart {head : ℕ} {window : List ℕ} {h : History V} {p : Process V} (hpoint : run.point = .await)
    (hwindow : run.window = head :: window) (hrestarted : node.coordinator.restarted head = true)
    (hstep : node.process.step w.history (.abandon run.window) = some (h, p)) :
    RunSteps w node l run .restart { w with history := h } (setRun { node with process := p } l run.restart)
  | done {head : ℕ} {window : List ℕ} (hpoint : run.point = .await) (hwindow : run.window = head :: window)
    (hdone : (node.process.chunk head).done = true) :
    RunSteps w node l run .done w
      (node.setRun l (run.delivered node.coordinator.cfg.chunkSize (node.process.chunk head) window))
  | record {ts : TableState} (hpoint : run.point = .record ts) :
    RunSteps w node l run .record w
      ((node.keep (node.coordinator.setState run.ref.string ts)).setRun l { run with point := .save ts })
  | save {ts : TableState} {written : Bool} (hpoint : run.point = .save ts) :
    RunSteps w node l run (.save written) (w.saveState written run.ref.string ts)
      (node.setRun l { run with point := .saved ts })
  | completed {ts : TableState} (hpoint : run.point = .saved ts) (hdone : ts.done = true) :
    RunSteps w node l run .saved w ((node.keep (node.coordinator.setStatus run.ref fun s =>
      { s with state := some .done, rowsCopied := run.copied, error := "" })).setRun l { run with point := .leave none })
  | progressed {ts : TableState} (hpoint : run.point = .saved ts) (hdone : ts.done = false) :
    RunSteps w node l run .saved w ((node.keep (node.coordinator.setStatus run.ref fun s =>
      { s with rowsCopied := run.copied })).setRun l
        { run with point := if 0 < node.coordinator.cfg.chunkDelay then .delay else .fill })
  | delay (hpoint : run.point = .delay) : RunSteps w node l run .delay w (node.setRun l { run with point := .fill })
  | cancel (hcanceled : node.canceled = true)
    (hpoint : run.point = .waitForStream ∨ run.point = .await ∨ run.point = .delay) :
    RunSteps w node l run .cancel w (node.setRun l { run with point := .leave (some "context canceled") })
  | leave {err : Option String} {h : History V} {p : Process V} (hpoint : run.point = .leave err)
    (hstep : node.process.step w.history (.abandon run.window) = some (h, p)) :
    RunSteps w node l run .leave { w with history := h }
      (setRun { node with process := p } l { run with point := .returned err })
  | finished (hpoint : run.point = .returned none) :
    RunSteps w node l run .returned w
      ((node.keep { node.coordinator with running := node.coordinator.running.erase run.ref }).setLane l .ready)
  | returned {err : String} (hpoint : run.point = .returned (some err)) :
    RunSteps w node l run .returned w
      ((node.keep { node.coordinator with running := node.coordinator.running.erase run.ref }).setRun l
        { run with point := .failed err })
  | stopped {err : String} (hpoint : run.point = .failed err) (hcanceled : node.canceled = true) :
    RunSteps w node l run .failed w (node.setLane l .stopped)
  | failed {err : String} (hpoint : run.point = .failed err) (hcanceled : node.canceled = false) :
    RunSteps w node l run .failed w ((node.keep (node.coordinator.setStatus run.ref fun s =>
      { s with state := some .failed, error := err })).setLane l .ready)

theorem onProcess_eq_some [ToString V] {a : ProcessAct V}
    (h : node.onProcess w a = some (w', node')) : ∃ history process, node.process.step w.history a = some (history, process) ∧
      w' = { w with history } ∧ node' = { node with process } := by
  simp only [onProcess, Option.map_eq_some_iff, Prod.mk.injEq] at h
  obtain ⟨⟨history, process⟩, hstep, hw, hnode⟩ := h
  exact ⟨history, process, hstep, hw.symm, hnode.symm⟩

/-- A step of the session. -/
theorem streamStep_eq_some [ToString V] {a : StreamAct}
    (h : node.streamStep w a = some (w', node')) : ∃ history process base selected,
      node.process.step w.history a.act = some (history, process) ∧ w' = { w with history } ∧
        node' = { node with process, base, selected } := by
  cases a with
  | up pos =>
    simp only [streamStep, Option.map_eq_some_iff] at h
    obtain ⟨⟨w₁, node₁⟩, hprocess, hrest⟩ := h
    obtain ⟨history, process, hstep, rfl, rfl⟩ := onProcess_eq_some hprocess
    cases hrest
    exact ⟨history, process, _, _, hstep, rfl, rfl⟩
  | _ =>
    obtain ⟨history, process, hstep, rfl, rfl⟩ := onProcess_eq_some h
    exact ⟨history, process, _, _, hstep, rfl, rfl⟩

theorem runSteps_of_emit [ToString V] {l i : ℕ} {written : Bool}
    {err : Option String} (hpoint : run.point = .starting i) (hstep : node.emitStep w l run i written err = some (w', node')) :
    RunSteps w node l run (.emit written err) w' node' := by
  simp only [emitStep, Option.map_eq_some_iff] at hstep
  obtain ⟨⟨w₁, node₁⟩, hprocess, hrest⟩ := hstep
  obtain ⟨h, p, hcall, rfl, rfl⟩ := onProcess_eq_some hprocess
  obtain ⟨a, ha, hstep⟩ : ∃ a, (a = .emitLow i written err.isNone ∨ a = .emitHigh i written err.isNone) ∧
      node.process.step w.history a = some (h, p) := by
    split at hcall
    · exact ⟨_, .inl rfl, hcall⟩
    · exact ⟨_, .inr rfl, hcall⟩
  cases err with
  | none =>
    cases hrest
    exact .emitted hpoint ha hstep
  | some err =>
    cases hrest
    exact .emitFailed hpoint ha hstep

theorem runSteps_of_select [ToString V] {l i : ℕ}
    {answer : Except String (ℕ × Chunk V)} (hpoint : run.point = .starting i)
    (hstep : node.selectStep w l run i answer = some (w', node')) : RunSteps w node l run (.select answer) w' node' := by
  cases answer with
  | error err =>
    simp only [selectStep, Option.map_eq_some_iff] at hstep
    obtain ⟨⟨w₁, node₁⟩, hprocess, hrest⟩ := hstep
    obtain ⟨h, p, hstep, rfl, rfl⟩ := onProcess_eq_some hprocess
    cases hrest
    exact .selectFailed hpoint hstep
  | ok selected =>
    obtain ⟨snapshot, chunk⟩ := selected
    simp only [selectStep, Option.map_eq_some_iff] at hstep
    obtain ⟨⟨w₁, node₁⟩, hprocess, hrest⟩ := hstep
    obtain ⟨h, p, hstep, rfl, rfl⟩ := onProcess_eq_some hprocess
    exact .selected hpoint hstep hrest

theorem runSteps_of_runStep [ToString V] {l : ℕ}
    (hstep : node.runStep w l run a = some (w', node')) : RunSteps w node l run a w' node' := by
  cases a with
  | pop => cases hstep
  | wake => cases hstep
  | primaryKey answer =>
    simp only [runStep, Option.ite_none_right_eq_some] at hstep
    cases hstep.2
    exact .primaryKey hstep.1
  | skip =>
    simp only [runStep, Option.ite_none_right_eq_some] at hstep
    cases hstep.2
    exact .skip hstep.1
  | load ok =>
    simp only [runStep, Option.ite_none_right_eq_some] at hstep
    cases hstep.2
    exact .load hstep.1
  | loaded =>
    simp only [runStep] at hstep
    split at hstep
    · rename_i answer hpoint
      cases hstep
      rcases answer with _ | _ | ts
      · exact .reloadFailed hpoint
      · exact .notFound hpoint
      · exact .found hpoint
    · cases hstep
  | already =>
    simp only [runStep] at hstep
    split at hstep
    · rename_i ts hpoint
      cases hstep
      exact .already hpoint
    · cases hstep
  | resume =>
    simp only [runStep, Option.ite_none_right_eq_some] at hstep
    cases hstep.2
    exact .resume hstep.1
  | announce =>
    simp only [runStep, Option.ite_none_right_eq_some] at hstep
    cases hstep.2
    exact .announce hstep.1
  | fill =>
    simp only [runStep, Option.ite_none_right_eq_some] at hstep
    cases hstep.2
    exact .fill hstep.1
  | waitForStream =>
    simp only [runStep, Option.ite_none_right_eq_some] at hstep
    cases hstep.2
    exact .waitForStream hstep.1.1 hstep.1.2
  | register =>
    simp only [runStep, Option.ite_none_right_eq_some, Option.map_eq_some_iff] at hstep
    obtain ⟨hpoint, ⟨w₁, node₁⟩, hprocess, hrest⟩ := hstep
    obtain ⟨h, p, hstep, rfl, rfl⟩ := onProcess_eq_some hprocess
    cases hrest
    exact .register hpoint hstep
  | emit written err =>
    simp only [runStep] at hstep
    split at hstep
    · rename_i i hpoint
      exact runSteps_of_emit hpoint hstep
    · cases hstep
  | select answer =>
    simp only [runStep] at hstep
    split at hstep
    · rename_i i hpoint
      exact runSteps_of_select hpoint hstep
    · cases hstep
  | publish =>
    simp only [runStep] at hstep
    split at hstep
    · rename_i i hpoint
      obtain ⟨h, p, hcall, rfl, rfl⟩ := onProcess_eq_some hstep
      exact .publish hpoint hcall
    · cases hstep
  | started =>
    simp only [runStep] at hstep
    split at hstep
    · rename_i i hpoint
      split at hstep
      · rename_i hstage
        cases hstep
        exact .started hpoint hstage
      · cases hstep
    · cases hstep
  | fail =>
    simp only [runStep] at hstep
    split at hstep
    · rename_i i err hpoint
      simp only [Option.map_eq_some_iff] at hstep
      obtain ⟨⟨w₁, node₁⟩, hprocess, hrest⟩ := hstep
      obtain ⟨h, p, hstep, rfl, rfl⟩ := onProcess_eq_some hprocess
      cases hrest
      exact .fail hpoint hstep
    · cases hstep
  | restart =>
    simp only [runStep] at hstep
    split at hstep
    · rename_i head window hpoint hwindow
      simp only [Option.ite_none_right_eq_some, Option.map_eq_some_iff] at hstep
      obtain ⟨hrestarted, ⟨w₁, node₁⟩, hprocess, hrest⟩ := hstep
      obtain ⟨h, p, hstep, rfl, rfl⟩ := onProcess_eq_some hprocess
      cases hrest
      exact .restart hpoint hwindow hrestarted hstep
    · cases hstep
  | done =>
    simp only [runStep] at hstep
    split at hstep
    · rename_i head window hpoint hwindow
      split at hstep
      · rename_i hdone
        cases hstep
        exact .done hpoint hwindow hdone
      · cases hstep
    · cases hstep
  | record =>
    simp only [runStep] at hstep
    split at hstep
    · rename_i ts hpoint
      cases hstep
      exact .record hpoint
    · cases hstep
  | save written =>
    simp only [runStep] at hstep
    split at hstep
    · rename_i ts hpoint
      cases hstep
      exact .save hpoint
    · cases hstep
  | saved =>
    simp only [runStep] at hstep
    split at hstep
    · rename_i ts hpoint
      split at hstep
      · rename_i hdone
        cases hstep
        exact .completed hpoint hdone
      · rename_i hdone
        cases hstep
        exact .progressed hpoint (Bool.eq_false_iff.mpr hdone)
    · cases hstep
  | delay =>
    simp only [runStep, Option.ite_none_right_eq_some] at hstep
    cases hstep.2
    exact .delay hstep.1
  | cancel =>
    simp only [runStep, Option.ite_none_right_eq_some] at hstep
    cases hstep.2
    exact .cancel hstep.1.1 hstep.1.2
  | leave =>
    simp only [runStep] at hstep
    split at hstep
    · rename_i err hpoint
      simp only [Option.map_eq_some_iff] at hstep
      obtain ⟨⟨w₁, node₁⟩, hprocess, hrest⟩ := hstep
      obtain ⟨h, p, hstep, rfl, rfl⟩ := onProcess_eq_some hprocess
      cases hrest
      exact .leave hpoint hstep
    · cases hstep
  | returned =>
    simp only [runStep] at hstep
    split at hstep
    · rename_i err hpoint
      cases err <;> cases hstep
      · exact .finished hpoint
      · exact .returned hpoint
    · cases hstep
  | failed =>
    simp only [runStep] at hstep
    split at hstep
    · rename_i err hpoint
      split at hstep
      · rename_i hcanceled
        cases hstep
        exact .stopped hpoint hcanceled
      · rename_i hcanceled
        cases hstep
        exact .failed hpoint (Bool.eq_false_iff.mpr hcanceled)
    · cases hstep

/-- What is remembered of first selects is all that `noteSelect` touches. -/
theorem noteSelect_eq {ref : TableRef} {cursor : List String} (hnote : node.noteSelect w ref cursor = (w', node')) :
    ∃ firsts selected, node.selected ⊆ selected ∧ w' = { w with firsts } ∧ node' = { node with selected } := by
  unfold noteSelect at hnote
  split at hnote
  · cases hnote
    exact ⟨w.firsts, node.selected, List.Subset.refl _, rfl, rfl⟩
  · cases hnote
    exact ⟨_, _, List.subset_cons_self _ _, rfl, rfl⟩

/-- A lane in a run stays with its table. -/
theorem RunSteps.ref [ToString V] {l : ℕ}
    (hstep : RunSteps w node l run a w' node') (hrun : node.lanes l = .running run) (hrun' : node'.lanes l = .running run') :
    run'.ref = run.ref := by
  cases hstep with
  | @primaryKey answer =>
    obtain rfl := eq_of_setRun hrun'
    cases answer <;> rfl
  | emitted | publish =>
    rw [Lane.running.inj (hrun.symm.trans hrun')]
  | selected _ _ hnote =>
    obtain ⟨firsts, selected, -, rfl, rfl⟩ := noteSelect_eq hnote
    rw [eq_of_setRun hrun']
    rfl
  | done =>
    obtain rfl := eq_of_setRun hrun'
    unfold Run.delivered
    dsimp only
    split <;> rfl
  | finished | stopped | failed =>
    simp [setLane] at hrun'
  | _ =>
    obtain rfl := eq_of_setRun hrun'
    rfl

/-- The other lanes stay where they are. -/
theorem RunSteps.lanes [ToString V] {l : ℕ} (hstep : RunSteps w node l run a w' node') {j : ℕ} (hj : j ≠ l) :
    node'.lanes j = node.lanes j := by
  cases hstep with
  | emitted | publish => rfl
  | selected _ _ hnote =>
    obtain ⟨firsts, selected, -, rfl, rfl⟩ := noteSelect_eq hnote
    exact Function.update_of_ne hj _ _
  | _ => exact Function.update_of_ne hj _ _

theorem RunSteps.requests [ToString V] {l : ℕ}
    (hstep : RunSteps w node l run a w' node') : node'.requests = node.requests := by
  cases hstep with
  | selected _ _ hnote =>
    obtain ⟨firsts, selected, -, rfl, rfl⟩ := noteSelect_eq hnote
    rfl
  | _ => rfl

/-! ### Steps of a node -/

/-- The steps of a node, with what makes each possible. -/
inductive Steps [ToString V] (w : Shared V) (node : Node V) : NodeAct V → Shared V → Node V → Prop
  | stream {a : StreamAct} {h : History V} {p : Process V} {base : StateMap} {selected : List TableRef}
    (hstep : node.process.step w.history a.act = some (h, p)) :
    Steps w node (.stream a) { w with history := h } { node with process := p, base, selected }
  | run {l : ℕ} {run : Run} {a : LaneAct V} {w' : Shared V} {node' : Node V} (hrun : node.lanes l = .running run)
    (hstep : RunSteps w node l run a w' node') : Steps w node (.lane l a) w' node'
  | sleep {l : ℕ} (hlane : node.lanes l = .ready) (hqueue : node.coordinator.queue = []) :
    Steps w node (.lane l .pop) w (node.setLane l .asleep)
  | pop {l : ℕ} {ref : TableRef} {queue : List TableRef} (hlane : node.lanes l = .ready)
    (hqueue : node.coordinator.queue = ref :: queue) :
    Steps w node (.lane l .pop) w ((node.keep { node.coordinator with
      queue, running := node.coordinator.running.insert ref }).setRun l { ref })
  | wake {l : ℕ} (hlane : node.lanes l = .asleep) (hwake : 0 < node.coordinator.wake) :
    Steps w node (.lane l .wake) w
      ((node.keep { node.coordinator with wake := node.coordinator.wake - 1 }).setLane l .ready)
  | stopped {l : ℕ} (hlane : node.lanes l = .asleep) : Steps w node (.lane l .cancel) w (node.setLane l .stopped)
  | request {r : ℕ} {kind : RequestKind} {tables : List TableRef} (hfree : node.requests r = none) :
    Steps w node (.request r kind tables) w
      (node.setRequest r (some { kind, tables := node.coordinator.candidates kind tables }))
  | mark {r : ℕ} {written : Bool} {request : Request} (hrequest : node.requests r = some request)
    (hmarked : request.marked = false) :
    Steps w node (.mark r written) (w.markPending written (request.tables.map TableRef.string))
      (node.setRequest r (some { request with marked := true }))
  | grant {r : ℕ} {request : Request} (hrequest : node.requests r = some request) (hmarked : request.marked = true) :
    Steps w node (.grant r) w
      ((node.keep (request.tables.foldl (Coordinator.grantTable request.kind) node.coordinator)).setRequest r none)
  | stop : Steps w node .stop w { node with canceled := true }

theorem steps_of_laneStep [ToString V] {l : ℕ}
    (hstep : node.laneStep w l a = some (w', node')) : Steps w node (.lane l a) w' node' := by
  unfold laneStep at hstep
  split at hstep
  · rename_i hlane
    rcases hqueue : node.coordinator.queue with _ | ⟨ref, queue⟩
    · simp only [Coordinator.pop, hqueue] at hstep
      cases hstep
      exact .sleep hlane hqueue
    · simp only [Coordinator.pop, hqueue] at hstep
      cases hstep
      exact .pop hlane hqueue
  · rename_i hlane
    simp only [Option.ite_none_right_eq_some] at hstep
    cases hstep.2
    exact .wake hlane hstep.1
  · rename_i hlane
    simp only [Option.ite_none_right_eq_some] at hstep
    cases hstep.2
    exact .stopped hlane
  · rename_i run hlane
    exact .run hlane (runSteps_of_runStep hstep)
  · cases hstep

theorem steps_of_step [ToString V] {a : NodeAct V}
    (hstep : node.step w a = some (w', node')) : Steps w node a w' node' := by
  cases a with
  | stream a =>
    obtain ⟨h, p, base, selected, hcall, rfl, rfl⟩ := streamStep_eq_some hstep
    exact .stream hcall
  | lane l a => exact steps_of_laneStep hstep
  | request r kind tables =>
    simp only [step, Option.ite_none_right_eq_some] at hstep
    cases hstep.2
    exact .request hstep.1.1
  | mark r written =>
    simp only [step] at hstep
    split at hstep
    · rename_i request hrequest
      split at hstep
      · cases hstep
      · rename_i hmarked
        cases hstep
        exact .mark hrequest (Bool.eq_false_iff.mpr hmarked)
    · cases hstep
  | grant r =>
    simp only [step] at hstep
    split at hstep
    · rename_i request hrequest
      split at hstep
      · rename_i hmarked
        cases hstep
        exact .grant hrequest hmarked
      · cases hstep
    · cases hstep
  | stop =>
    cases hstep
    exact .stop

/-- A lane in a run takes a step of the run. -/
theorem runSteps_of_laneStep [ToString V] {l : ℕ}
    (hrun : node.lanes l = .running run) (hstep : node.laneStep w l a = some (w', node')) : RunSteps w node l run a w' node' := by
  cases steps_of_laneStep hstep with
  | run hrun' hstep =>
    cases hrun.symm.trans hrun'
    exact hstep
  | sleep hlane | pop hlane | wake hlane | stopped hlane => cases hrun.symm.trans hlane

/-- A lane that is in a run after its step was in one before, or has popped the
table. -/
theorem laneStep_running [ToString V] {l : ℕ}
    (hstep : node.laneStep w l a = some (w', node')) (hrun' : node'.lanes l = .running run') :
    (∃ run, node.lanes l = .running run ∧ RunSteps w node l run a w' node') ∨
      ∃ ref ∈ node.coordinator.queue, run' = { ref } := by
  cases steps_of_laneStep hstep with
  | run hrun hstep => exact .inl ⟨_, hrun, hstep⟩
  | @pop _ ref _ _ hqueue =>
    simp only [setRun, setLane, Function.update_self, Lane.running.injEq] at hrun'
    exact .inr ⟨ref, by simp [hqueue], hrun'.symm⟩
  | sleep | wake | stopped => simp [setLane] at hrun'

end Node

namespace World

variable {N : Type} [DecidableEq N]

/-- The steps of the nodes and the database. -/
inductive Steps [ToString V] (w : World N V) : WorldAct N V → World N V → Prop
  | commit {events : List (CDCEvent V)} : Steps w (.commit events) (w.onHistory (w.shared.history.commit events))
  | foreign {content : Option WatermarkPayload} : Steps w (.foreign content) (w.onHistory (w.shared.history.foreign content))
  | boot {n : N} {cfg : Config} {instanceID : String} {names : List String} {loaded : Bool} (hdown : w.nodes n = none)
    (hnames : names.Perm w.shared.store.keys) :
    Steps w (.boot n cfg instanceID names loaded) (w.setNode n (some (startNode cfg instanceID w.shared.store names loaded)))
  | crash {n : N} : Steps w (.crash n) (w.setNode n none)
  | node {n : N} {a : NodeAct V} {node node' : Node V} {shared : Shared V} (hn : w.nodes n = some node)
    (hstep : node.step w.shared a = some (shared, node')) :
    Steps w (.node n a) { shared, nodes := Function.update w.nodes n (some node') }

theorem steps_of_step [ToString V] {w w' : World N V} {a : WorldAct N V} (hstep : w.step a = some w') : Steps w a w' := by
  cases a with
  | commit events =>
    cases hstep
    exact .commit
  | foreign content =>
    cases hstep
    exact .foreign
  | boot n cfg instanceID names loaded =>
    simp only [step, Option.ite_none_right_eq_some, Option.isNone_iff_eq_none] at hstep
    cases hstep.2
    exact .boot hstep.1.1 hstep.1.2
  | crash n =>
    cases hstep
    exact .crash
  | node n a =>
    simp only [step, Option.bind_eq_bind, Option.bind_eq_some_iff, Option.pure_def] at hstep
    obtain ⟨node, hn, ⟨shared, node'⟩, hstep, hw'⟩ := hstep
    cases hw'
    exact .node hn hstep

/-- What a node has when it starts and its step keeps, every node has after a
step, whatever the others and the database do. -/
theorem step_nodes [ToString V] {P : Node V → Prop} {w w' : World N V} {a : WorldAct N V} (hworld : w.step a = some w')
    (hw : ∀ n node, w.nodes n = some node → P node)
    (hstart : ∀ cfg instanceID names loaded, names.Perm w.shared.store.keys → P (startNode cfg instanceID w.shared.store names loaded))
    (hstep : ∀ n b node node', a = .node n b → P node → node.step w.shared b = some (w'.shared, node') → P node') :
    ∀ n node, w'.nodes n = some node → P node := by
  -- one node is replaced, by one that meets it if at all
  have hupdate : ∀ {m : N} {new : Option (Node V)}, (∀ node, new = some node → P node) →
      ∀ n node, Function.update w.nodes m new n = some node → P node := by
    intro m new hnew n node hn
    rw [Function.update_apply] at hn
    split at hn
    · exact hnew node hn
    · exact hw n node hn
  cases steps_of_step hworld with
  | commit | foreign => exact hw
  | @boot m cfg instanceID names loaded _ hnames =>
    refine hupdate fun node hnode => ?_
    cases hnode
    exact hstart cfg instanceID names loaded hnames
  | crash => exact hupdate fun node hnode => by cases hnode
  | @node m b node node' shared hm hnode =>
    refine hupdate fun node'' hnode' => ?_
    cases hnode'
    exact hstep m b node node' rfl (hw m node hm) hnode

end World

end Gtc.Backfill
