/-
Replays and runs: a run that went on from progress loaded after the last replay
of its table covers rows for that replay, not for an earlier one.

`Frame` is what a node's step leaves alone: the lanes that do not take it, what
the database has told their chunks, and the cached progress. What a run holds is
the progress it will go on from, so a condition on progress that is met when it
is loaded stays met while no one resets the table.
-/
import Gtc.Backfill.Completeness

namespace Gtc.Backfill

open Lib

variable {V : Type}

/-! ## What a run holds -/

/-- The run goes on from progress that it has loaded. -/
def RunPoint.holds : RunPoint → Bool
  | .primaryKey | .skip | .load | .already _ | .leave _ | .returned _ | .failed _ => false
  | _ => true

/-- It has loaded progress, and not set its variables yet. -/
def RunPoint.opening : RunPoint → Bool
  | .loaded _ | .resume => true
  | _ => false

/-- The progress a run goes on from. -/
def Run.held (run : Run) (state : StateMap) : TableState :=
  match run.point with
  | .loaded answer => answer.join.getD {}
  | .resume => (state.lookup run.ref.string).getD {}
  | _ => { cursor := run.cursor, began := run.began }

theorem Run.held_of_copying {run : Run} (hpoint : run.point.opening = false) (state : StateMap) :
    run.held state = { cursor := run.cursor, began := run.began } := by
  unfold held
  split
  · rename_i answer heq
    rw [heq] at hpoint
    cases hpoint
  · rename_i heq
    rw [heq] at hpoint
    cases hpoint
  · rfl

theorem RunPoint.holds_of_state {point : RunPoint} {ts : TableState} (hts : point.state? = some ts) : point.holds = true := by
  cases point <;> first | rfl | cases hts

/-! ## What the steps of a node leave alone -/

section Frame

variable {moved : ℕ → Prop} {node node' : Node V} {l : ℕ}

structure Frame (moved : ℕ → Prop) (node node' : Node V) : Prop where
  lanes : ∀ j, ¬ moved j → node'.lanes j = node.lanes j
  calls : ∀ i, node.coordinator.Registered i → ¬ moved (node.process.calls i).lane →
    (node'.process.calls i).low = (node.process.calls i).low ∧
      (node'.process.calls i).selection = (node.process.calls i).selection
  state : ∀ name ts, node'.coordinator.state.lookup name = some ts → node.coordinator.state.lookup name = some ts ∨
    ∃ l run, moved l ∧ node.lanes l = .running run ∧ name = run.ref.string ∧ run.point.state? = some ts

/-- A step on chunks. -/
theorem Frame.process [ToString V] {h h' : History V} {p' : Process V} {a : ProcessAct V}
    (hstep : node.process.step h a = some (h', p')) (hown : ∀ i, a.chunk? = some i → moved (node.process.calls i).lane)
    {lanes : ℕ → Lane} (hlanes : ∀ j, ¬ moved j → lanes j = node.lanes j) :
    Frame moved node { node with process := p', lanes } where
  lanes := hlanes
  calls i hi hlane := by
    obtain ⟨read, hcall⟩ := (Process.step_keeps hstep hi fun ha => absurd (hown i ha) hlane).call
    simp only [hcall]
    exact ⟨trivial, trivial⟩
  state name ts hts := by
    simp only [Node.coordinator, (Process.step_tables hstep).state] at hts
    exact .inl hts

theorem Frame.note (hf : Frame moved node node') {w w' : Shared V} {node'' : Node V} {ref : TableRef} {cursor : List String}
    (hnote : node'.noteSelect w ref cursor = (w', node'')) : Frame moved node node'' := by
  obtain ⟨firsts, selected, -, rfl, rfl⟩ := Node.noteSelect_eq hnote
  exact ⟨hf.lanes, hf.calls, hf.state⟩

/-- What a run of another lane holds after the step. -/
theorem Frame.held (hf : Frame moved node node') (run : Run) :
    run.held node'.coordinator.state = run.held node.coordinator.state ∨ run.held node'.coordinator.state = {} ∨
      run.point = .resume ∧ ∃ l run', moved l ∧ node.lanes l = .running run' ∧ run.ref.string = run'.ref.string ∧
        run'.point.state? = some (run.held node'.coordinator.state) := by
  unfold Run.held
  split
  · exact .inl rfl
  · rename_i hpoint
    cases hlookup : node'.coordinator.state.lookup run.ref.string with
    | none => exact .inr (.inl rfl)
    | some ts =>
      rcases hf.state _ ts hlookup with hold | hmoved
      · rw [hold]
        exact .inl rfl
      · exact .inr (.inr ⟨hpoint, hmoved⟩)
  · exact .inl rfl

variable [ToString V] {db : Database V} {w w' : Shared V} {run : Run} {a : LaneAct V}

/-- What a run's step does to the cached progress: it sets the progress the run
is at, or forgets some. -/
theorem Node.RunSteps.state (hstep : Node.RunSteps w node l run a w' node') (name : String) (ts : TableState)
    (hts : node'.coordinator.state.lookup name = some ts) :
    node.coordinator.state.lookup name = some ts ∨ name = run.ref.string ∧ run.point.state? = some ts := by
  cases hstep with
  | notFound =>
    refine .inl ?_
    by_cases hname : name = run.ref.string
    · subst hname
      simp [Node.coordinator, Node.setRun, Node.setLane, Node.keep, Coordinator.forget] at hts
    · simpa [Node.coordinator, Node.setRun, Node.setLane, Node.keep, Coordinator.forget, AList.lookup_erase_ne hname] using hts
  | found hpoint | record hpoint =>
    simp only [Node.coordinator, Node.setRun, Node.setLane, Node.keep, Coordinator.setState] at hts
    by_cases hname : name = run.ref.string
    · subst hname
      rw [AList.lookup_insert] at hts
      cases hts
      exact .inr ⟨rfl, by rw [hpoint]; rfl⟩
    · rw [AList.lookup_insert_ne hname] at hts
      exact .inl hts
  | selected _ hstep hnote =>
    have hstate : node'.coordinator.state = node.coordinator.state := by
      obtain ⟨firsts, selected, -, rfl, rfl⟩ := Node.noteSelect_eq hnote
      exact (Process.step_tables hstep).state
    exact .inl (by rwa [hstate] at hts)
  | register _ hstep | emitted _ _ hstep | emitFailed _ _ hstep | selectFailed _ hstep | publish _ hstep | fail _ hstep
  | restart _ _ _ hstep | leave _ hstep =>
    simp only [Node.coordinator, Node.setRun, Node.setLane, (Process.step_tables hstep).state] at hts
    exact .inl hts
  | _ => exact .inl hts

/-- A step of a run leaves the other lanes alone. -/
theorem Frame.runStep (hr : RunOk db w.history node.process l run) (hrun : node.lanes l = .running run)
    (hstep : Node.RunSteps w node l run a w' node') : Frame (· = l) node node' := by
  have hset : ∀ {lane : Lane} (j : ℕ), ¬ j = l → Function.update node.lanes l lane j = node.lanes j :=
    fun j hj => Function.update_of_ne hj _ _
  have hmine : ∀ {i : ℕ}, run.point.chunk? = some i → (node.process.calls i).lane = l := fun hi => (hr.own _ hi).2
  have hstate : ∀ name ts, node'.coordinator.state.lookup name = some ts → node.coordinator.state.lookup name = some ts ∨
      ∃ j run, j = l ∧ node.lanes j = .running run ∧ name = run.ref.string ∧ run.point.state? = some ts := by
    intro name ts hts
    rcases hstep.state name ts hts with hold | ⟨hname, hpoint⟩
    · exact .inl hold
    · exact .inr ⟨l, run, rfl, hrun, hname, hpoint⟩
  cases hstep with
  | register hpoint hstep => exact .process hstep (fun _ hi => by cases hi) hset
  | emitted hpoint ha hstep =>
    refine .process hstep (fun j hj => ?_) fun _ _ => rfl
    rcases ha with rfl | rfl <;> cases hj <;> exact hmine (by rw [hpoint]; rfl)
  | emitFailed hpoint ha hstep =>
    refine .process hstep (fun j hj => ?_) hset
    rcases ha with rfl | rfl <;> cases hj <;> exact hmine (by rw [hpoint]; rfl)
  | selected hpoint hstep hnote =>
    refine .note (.process hstep (fun j hj => ?_) hset) hnote
    cases hj
    exact hmine (by rw [hpoint]; rfl)
  | selectFailed hpoint hstep =>
    refine .process hstep (fun j hj => ?_) hset
    cases hj
    exact hmine (by rw [hpoint]; rfl)
  | publish hpoint hstep =>
    refine .process hstep (fun j hj => ?_) fun _ _ => rfl
    cases hj
    exact hmine (by rw [hpoint]; rfl)
  | fail hpoint hstep =>
    refine .process hstep (fun j hj => ?_) hset
    cases hj
    exact hmine (by rw [hpoint]; rfl)
  | restart _ _ _ hstep => exact .process hstep (fun _ hi => by cases hi) hset
  | leave _ hstep => exact .process hstep (fun _ hi => by cases hi) hset
  | _ => exact ⟨hset, fun _ _ _ => ⟨rfl, rfl⟩, hstate⟩

/-- What a run's step does to the state table. -/
theorem Node.RunSteps.shared (hstep : Node.RunSteps w node l run a w' node') :
    w'.replayAt = w.replayAt ∧ (w'.store = w.store ∨
      ∃ ts written, a = .save written ∧ run.point = .save ts ∧ w'.store = w.store.insert run.ref.string ts) := by
  cases hstep with
  | @save ts written hpoint =>
    cases written with
    | false => exact ⟨rfl, .inl rfl⟩
    | true => exact ⟨rfl, .inr ⟨ts, true, rfl, hpoint, rfl⟩⟩
  | selected _ _ hnote =>
    obtain ⟨firsts, selected, -, rfl, rfl⟩ := Node.noteSelect_eq hnote
    exact ⟨rfl, .inl rfl⟩
  | _ => exact ⟨rfl, .inl rfl⟩

/-- The lane that takes a step. -/
def NodeAct.moves : NodeAct V → ℕ → Prop
  | .lane l _ => (· = l)
  | _ => fun _ => False

omit [ToString V] in
theorem grant_state (kind : RequestKind) (tables : List TableRef) (c : Coordinator V) :
    ∀ name ts, (tables.foldl (Coordinator.grantTable kind) c).state.lookup name = some ts → c.state.lookup name = some ts := by
  induction tables generalizing c with
  | nil => exact fun _ _ hts => hts
  | cons ref tables ih =>
    exact fun name ts hts => (Coordinator.grantTable_tables kind c ref).1 name ts (ih (Coordinator.grantTable kind c ref) name ts hts)

/-- The session goes on, or ends. -/
structure Steady (node node' : Node V) : Prop where
  streaming : node'.coordinator.streaming = true → node.coordinator.streaming = true
  base : node'.base = node.base
  selected : ∀ ref ∈ node.selected, ref ∈ node'.selected

/-- Only `OnStreamStart` sets `streaming`. -/
theorem Process.step_streaming {h h' : History V} {p p' : Process V} {a : ProcessAct V} (hstep : p.step h a = some (h', p'))
    (hup : ∀ pos, a ≠ .up pos) : p'.coordinator.streaming = true → p.coordinator.streaming = true := by
  cases Process.steps_of_step hstep with
  | @select _ answer => cases answer <;> exact id
  | publish =>
    simp only [Process.publish, Process.setCall, Coordinator.publish]
    split <;> exact id
  | abandon =>
    simp only [Coordinator.abandon_eq]
    exact id
  | up => exact absurd rfl (hup _)
  | down =>
    simp only [Coordinator.onStreamStop]
    split <;> exact fun h => by cases h
  | @take _ _ _ item =>
    cases item with
    | mark content =>
      simp only [Process.take, Process.handleWatermark, Coordinator.handleWatermark]
      repeat' split
      all_goals exact id
    | _ => exact id
  | delivered =>
    simp only [Process.delivered, Coordinator.watermarkDelivered]
    repeat' split
    all_goals exact id
  | _ => exact id

theorem Steady.runStep (hstep : Node.RunSteps w node l run a w' node') : Steady node node' := by
  cases hstep with
  | register _ hstep | fail _ hstep | leave _ hstep | restart _ _ _ hstep | selectFailed _ hstep | publish _ hstep =>
    exact ⟨Process.step_streaming hstep (fun _ h => by cases h), rfl, fun _ h => h⟩
  | emitted _ ha hstep | emitFailed _ ha hstep =>
    refine ⟨Process.step_streaming hstep ?_, rfl, fun _ h => h⟩
    rcases ha with rfl | rfl <;> exact fun _ h => by cases h
  | selected _ hstep hnote =>
    have hstreaming := Process.step_streaming hstep fun _ h => by cases h
    obtain ⟨firsts, selected, hselected, rfl, rfl⟩ := Node.noteSelect_eq hnote
    exact ⟨hstreaming, rfl, hselected⟩
  | _ => exact ⟨fun h => h, rfl, fun _ h => h⟩

/-- The lanes that take no step stay where they are. -/
theorem Node.step_lanes {a : NodeAct V} (hstep : node.step w a = some (w', node')) {j : ℕ} (hj : ¬ a.moves j) :
    node'.lanes j = node.lanes j := by
  cases Node.steps_of_step hstep with
  | run _ hstep => exact hstep.lanes hj
  | sleep | pop | wake | stopped => exact Function.update_of_ne hj _ _
  | _ => rfl

/-- What a node's step does to the cached progress. -/
theorem Node.step_state {a : NodeAct V} (hstep : node.step w a = some (w', node')) (name : String) (ts : TableState)
    (hts : node'.coordinator.state.lookup name = some ts) :
    node.coordinator.state.lookup name = some ts ∨ ∃ l run, a.moves l ∧ node.lanes l = .running run ∧
      name = run.ref.string ∧ run.point.state? = some ts := by
  cases Node.steps_of_step hstep with
  | stream hcall =>
    rw [Node.coordinator, (Process.step_tables hcall).state] at hts
    exact .inl hts
  | @run l run _ _ _ hrun hstep =>
    rcases hstep.state name ts hts with hold | ⟨hname, hpoint⟩
    · exact .inl hold
    · exact .inr ⟨l, run, rfl, hrun, hname, hpoint⟩
  | grant => exact .inl (grant_state _ _ _ name ts hts)
  | _ => exact .inl hts

theorem Frame.laneStep (hn : NodeOk db w.history node) (hstep : node.laneStep w l a = some (w', node')) :
    Frame (· = l) node node' := by
  cases Node.steps_of_laneStep hstep with
  | run hrun hstep => exact .runStep (hn.runs l _ hrun) hrun hstep
  | sleep | pop | wake | stopped =>
    exact ⟨fun j hj => Function.update_of_ne hj _ _, fun _ _ _ => ⟨rfl, rfl⟩, fun _ _ hts => .inl hts⟩

theorem Frame.streamStep {a : StreamAct} (hstep : node.streamStep w a = some (w', node')) :
    Frame (fun _ => False) node node' := by
  obtain ⟨h, p, base, selected, hcall, rfl, rfl⟩ := Node.streamStep_eq_some hstep
  have hf : Frame (fun _ => False) node { node with process := p } := by
    refine .process hcall (fun i hi => ?_) fun _ _ => rfl
    cases a <;> cases hi
  exact ⟨hf.lanes, hf.calls, hf.state⟩

theorem Frame.step (hn : NodeOk db w.history node) {a : NodeAct V} (hstep : node.step w a = some (w', node')) :
    Frame a.moves node node' := by
  refine ⟨fun j hj => Node.step_lanes hstep hj, ?_, Node.step_state hstep⟩
  cases Node.steps_of_step hstep with
  | stream => exact (Frame.streamStep hstep).calls
  | run => exact (Frame.laneStep hn hstep).calls
  | _ => exact fun _ _ _ => ⟨rfl, rfl⟩

/-- What a node's step does to the state table: nothing, or a run saves its
progress, or a request resets its tables. -/
theorem Node.step_shared {a : NodeAct V} (hstep : node.step w a = some (w', node')) :
    (w'.replayAt = w.replayAt ∧ w'.store = w.store) ∨
      (∃ l run ts written, a = .lane l (.save written) ∧ node.lanes l = .running run ∧ run.point = .save ts ∧
        w'.replayAt = w.replayAt ∧ w'.store = w.store.insert run.ref.string ts) ∨
      ∃ r written request, a = .mark r written ∧ node.requests r = some request ∧
        w' = w.markPending true (request.tables.map TableRef.string) := by
  cases Node.steps_of_step hstep with
  | @run l run _ _ _ hrun hstep =>
    obtain ⟨hreplay, hstore | ⟨ts, written, rfl, hpoint, hstore⟩⟩ := hstep.shared
    · exact .inl ⟨hreplay, hstore⟩
    · exact .inr (.inl ⟨l, run, ts, written, rfl, hrun, hpoint, hreplay, hstore⟩)
  | @mark r written request hrequest =>
    cases written with
    | false => exact .inl ⟨rfl, rfl⟩
    | true => exact .inr (.inr ⟨r, true, request, rfl, hrequest, rfl⟩)
  | _ => exact .inl ⟨rfl, rfl⟩

end Frame

/-! ## Progress of the last replay -/

section Since

/-- The run that made the progress began after the replay. -/
def SinceReplay (pos : ℕ) (began : Option Began) : Prop := ∀ b, began = some b → pos ≤ b.low

theorem sinceReplay_none (pos : ℕ) : SinceReplay pos none := fun _ hb => by cases hb

structure RunSince (pos : ℕ) (node : Node V) (run : Run) : Prop where
  held : SinceReplay pos (run.held node.coordinator.state).began
  state : ∀ ts, run.point.state? = some ts → SinceReplay pos ts.began
  answered : run.point ≠ .loaded none
  starting : ∀ i, run.point = .starting i → ∀ low, (node.process.calls i).low = some low → pos ≤ low

variable {pos : ℕ} {node node' : Node V} {l : ℕ} {run : Run}

/-- A run that is at a point where nothing else is held. -/
theorem runSince_of_began (hopening : run.point.opening = false) (hbegan : SinceReplay pos run.began)
    (hstate : run.point.state? = none) (hchunk : ∀ i, run.point ≠ .starting i) : RunSince pos node run where
  held := by
    rw [Run.held_of_copying hopening]
    exact hbegan
  state ts hts := by
    rw [hstate] at hts
    cases hts
  answered heq := by
    rw [heq] at hopening
    cases hopening
  starting i hi := absurd hi (hchunk i)

theorem RunSince.began (hs : RunSince pos node run) (hopening : run.point.opening = false) : SinceReplay pos run.began := by
  have hheld := hs.held
  rwa [Run.held_of_copying hopening] at hheld

/-- The runs of the lanes that do not take the step. -/
theorem RunSince.frame {moved : ℕ → Prop} (hs : RunSince pos node run) (hf : Frame moved node node')
    (hown : ∀ i, run.point.chunk? = some i → node.coordinator.Registered i ∧ ¬ moved (node.process.calls i).lane)
    (hmoved : ∀ l run' ts, moved l → node.lanes l = .running run' → run.ref.string = run'.ref.string →
      run'.point.state? = some ts → SinceReplay pos ts.began) : RunSince pos node' run where
  held := by
    rcases hf.held run with heq | heq | ⟨-, l, run', hl, hrun', hname, hts⟩
    · rw [heq]
      exact hs.held
    · rw [heq]
      exact sinceReplay_none pos
    · exact hmoved l run' _ hl hrun' hname hts
  state := hs.state
  answered := hs.answered
  starting i hi low hlow := by
    obtain ⟨hreg, hlane⟩ := hown i (by rw [hi]; rfl)
    rw [(hf.calls i hreg hlane).1] at hlow
    exact hs.starting i hi low hlow

variable [ToString V] {db : Database V} {w w' : Shared V} {a : LaneAct V}

/-- A run goes on from what it loaded, and begins after it. -/
theorem RunSince.step (hs : run.point.holds = true → RunSince pos node run)
    (hstore : ∀ ts, w.store.lookup run.ref.string = some ts → SinceReplay pos ts.began) (hpos : pos ≤ w.history.wal.length)
    (hload : ∀ ok, a = .load ok → ok = true) (ha : node.Assumed db w (.lane l a)) (hrun : node.lanes l = .running run)
    (hstep : Node.RunSteps w node l run a w' node') {run' : Run} (hrun' : node'.lanes l = .running run')
    (hholds : run'.point.holds = true) : run'.ref = run.ref ∧ RunSince pos node' run' := by
  -- the lane's run after a step that sets it
  cases hstep with
  | @primaryKey answer hpoint =>
    obtain rfl := Node.eq_of_setRun hrun'
    cases answer with
    | error err => cases hholds
    | ok pkCols =>
      simp only [Run.primaryKey] at hholds
      split at hholds <;> cases hholds
  | @load ok hpoint =>
    obtain rfl := hload ok rfl
    obtain rfl := Node.eq_of_setRun hrun'
    have hlookup : SinceReplay pos ((w.store.lookup run.ref.string).getD {}).began := by
      cases hts : w.store.lookup run.ref.string with
      | none => exact sinceReplay_none pos
      | some ts => exact hstore ts hts
    refine ⟨rfl, hlookup, fun ts hts => ?_, by simp, fun _ hi => by cases hi⟩
    cases hstored : w.store.lookup run.ref.string with
    | none => simp [hstored, RunPoint.state?] at hts
    | some st =>
      simp only [hstored, if_true, RunPoint.state?, Option.some.injEq] at hts
      exact hts ▸ hstore st hstored
  | reloadFailed hpoint => exact absurd hpoint (hs (by rw [hpoint]; rfl)).answered
  | notFound hpoint =>
    obtain rfl := Node.eq_of_setRun hrun'
    refine ⟨rfl, ?_, (fun _ hts => by cases hts), by simp [Run.reloaded], fun _ hi => by cases hi⟩
    simp [Run.held, Run.reloaded, Node.coordinator, Node.setRun, Node.setLane, Node.keep, Coordinator.forget, sinceReplay_none]
  | @found ts hpoint =>
    obtain rfl := Node.eq_of_setRun hrun'
    have hts := (hs (by rw [hpoint]; rfl)).state ts (by rw [hpoint]; rfl)
    simp only [Run.reloaded] at hholds ⊢
    split at hholds
    · cases hholds
    · rename_i hdone
      simp only [if_neg hdone]
      refine ⟨trivial, ?_, (fun _ hts => by cases hts), by simp, fun _ hi => by cases hi⟩
      simpa [Run.held, Node.coordinator, Node.setRun, Node.setLane, Node.keep, Coordinator.setState] using hts
  | resume hpoint =>
    obtain rfl := Node.eq_of_setRun hrun'
    refine ⟨rfl, runSince_of_began rfl ?_ rfl fun _ hi => by cases hi⟩
    have hheld := (hs (by rw [hpoint]; rfl)).held
    simp only [Run.held, hpoint] at hheld
    simp only [Run.resume]
    split
    · exact sinceReplay_none pos
    · exact hheld
  | announce hpoint | waitForStream hpoint | emitFailed hpoint | selectFailed hpoint | started hpoint | restart hpoint
  | save hpoint | delay hpoint =>
    obtain rfl := Node.eq_of_setRun hrun'
    exact ⟨rfl, runSince_of_began rfl ((hs (by rw [hpoint]; rfl)).began (by rw [hpoint]; rfl)) rfl fun _ hi => by cases hi⟩
  | fill hpoint =>
    obtain rfl := Node.eq_of_setRun hrun'
    have hbegan := (hs (by rw [hpoint]; rfl)).began (by rw [hpoint]; rfl)
    unfold Run.fill
    split
    · exact ⟨rfl, runSince_of_began rfl hbegan rfl fun _ hi => by cases hi⟩
    · exact ⟨rfl, runSince_of_began rfl hbegan rfl fun _ hi => by cases hi⟩
  | register hpoint hstep =>
    have hs := hs (by rw [hpoint]; rfl)
    cases hstep
    obtain rfl := Node.eq_of_setRun hrun'
    refine ⟨rfl, ?_, (fun _ hts => by cases hts), by simp, fun i hi low hlow => ?_⟩
    · rw [Run.held_of_copying rfl]
      exact hs.began (by rw [hpoint]; rfl)
    · cases hi
      simp [Node.setRun, Node.setLane, Process.register] at hlow
  | @emitted i a written h p hpoint ha' hstep =>
    have hs := hs (by rw [hpoint]; rfl)
    obtain rfl : run = run' := Lane.running.inj (hrun.symm.trans hrun')
    refine ⟨rfl, ?_, hs.state, hs.answered, fun j hj low hlow => ?_⟩
    · rw [Run.held_of_copying (by rw [hpoint]; rfl)]
      exact hs.began (by rw [hpoint]; rfl)
    · obtain rfl : i = j := RunPoint.starting.inj (hpoint.symm.trans hj)
      rcases ha' with rfl | rfl
      · cases Process.steps_of_step hstep with
        | emitLow hstage =>
          simp only [Process.emitLow, Process.setCall, Function.update_self] at hlow
          rw [writtenAt_eq hlow]
          exact hpos
      · cases Process.steps_of_step hstep with
        | emitHigh hstage =>
          simp only [Process.emitHigh, Process.setCall, Function.update_self] at hlow
          exact hs.starting i hpoint low hlow
  | @selected i snapshot chunk h p hpoint hstep w' node' hnote =>
    have hs := hs (by rw [hpoint]; rfl)
    obtain ⟨low, hlow, -⟩ := ha run i hrun hpoint
    obtain ⟨hlanes, hcalls⟩ : node'.lanes l = .running (run.selected ((p.calls i).low.getD 0) snapshot) ∧
        node'.process = p := by
      obtain ⟨firsts, selected, -, rfl, rfl⟩ := Node.noteSelect_eq hnote
      exact ⟨Function.update_self .., rfl⟩
    obtain rfl : run.selected ((p.calls i).low.getD 0) snapshot = run' := by
      rw [hlanes] at hrun'
      exact Lane.running.inj hrun'
    have hsame : (p.calls i).low = some low := by
      cases Process.steps_of_step hstep with
      | select hstage => simpa [Process.select, Process.setCall] using hlow
    have hle : pos ≤ low := hs.starting i hpoint low hlow
    refine ⟨rfl, ?_, hs.state, hs.answered, fun j hj low' hlow' => ?_⟩
    · rw [Run.held_of_copying (by rw [Run.selected, hpoint]; rfl)]
      intro b hb
      have hbegan := hs.began (by rw [hpoint]; rfl)
      simp only [Run.selected, hsame, Option.getD_some] at hb
      split at hb
      · cases hprev : run.began with
        | none =>
          rw [hprev] at hb
          cases hb
          exact hle
        | some b' =>
          rw [hprev] at hb
          cases hb
          exact hbegan b hprev
      · exact hbegan b hb
    · obtain rfl : i = j := RunPoint.starting.inj (hpoint.symm.trans hj)
      rw [hcalls, hsame] at hlow'
      cases hlow'
      exact hle
  | @publish i h p hpoint hstep =>
    have hs := hs (by rw [hpoint]; rfl)
    obtain rfl : run = run' := Lane.running.inj (hrun.symm.trans hrun')
    refine ⟨rfl, ?_, hs.state, hs.answered, fun j hj low hlow => ?_⟩
    · rw [Run.held_of_copying (by rw [hpoint]; rfl)]
      exact hs.began (by rw [hpoint]; rfl)
    · obtain rfl : i = j := RunPoint.starting.inj (hpoint.symm.trans hj)
      cases Process.steps_of_step hstep with
      | publish hstage =>
        simp only [Process.publish, Process.setCall, Function.update_self] at hlow
        exact hs.starting i hpoint low hlow
  | done hpoint hwindow hdone =>
    obtain rfl := Node.eq_of_setRun hrun'
    have hbegan := (hs (by rw [hpoint]; rfl)).began (by rw [hpoint]; rfl)
    simp only [Run.delivered]
    split
    all_goals
      refine ⟨rfl, hbegan, fun ts hts => ?_, by simp, fun _ hi => by cases hi⟩
      cases hts
      exact hbegan
  | record hpoint =>
    have hs := hs (by rw [hpoint]; rfl)
    obtain rfl := Node.eq_of_setRun hrun'
    refine ⟨rfl, hs.began (by rw [hpoint]; rfl), fun ts' hts' => ?_, by simp, fun _ hi => by cases hi⟩
    cases hts'
    exact hs.state _ (by rw [hpoint]; rfl)
  | progressed hpoint hdone =>
    obtain rfl := Node.eq_of_setRun hrun'
    have hbegan := (hs (by rw [hpoint]; rfl)).began (by rw [hpoint]; rfl)
    split
    · exact ⟨rfl, runSince_of_began rfl hbegan rfl fun _ hi => by cases hi⟩
    · exact ⟨rfl, runSince_of_began rfl hbegan rfl fun _ hi => by cases hi⟩
  | finished | stopped | failed =>
    simp [Node.setLane] at hrun'
  | _ =>
    obtain rfl := Node.eq_of_setRun hrun'
    cases hholds

/-! ### Over all nodes -/

structure SharedSince (w : Shared V) : Prop where
  replayAt : ∀ name, w.replayAt name ≤ w.history.wal.length
  store : ∀ name ts, w.store.lookup name = some ts → SinceReplay (w.replayAt name) ts.began

def NodeSince (w : Shared V) (node : Node V) : Prop :=
  ∀ l run, node.lanes l = .running run → run.point.holds = true → RunSince (w.replayAt run.ref.string) node run

omit [ToString V] in
theorem lookup_markPending (names : List String) (store : StateMap) (name : String) :
    (names.foldl (fun store name => store.insert name {}) store).lookup name =
      if name ∈ names then some {} else store.lookup name := by
  induction names generalizing store with
  | nil => rfl
  | cons name' names ih =>
    rw [List.foldl_cons, ih]
    by_cases hname : name = name'
    · subst hname
      simp
    · simp [hname]

/-- The replays after a node's step. -/
theorem SharedSince.step (hw : SharedSince w) (hs : NodeSince w node) (hgrows : w.history.wal.length ≤ w'.history.wal.length)
    {a : NodeAct V} (hstep : node.step w a = some (w', node')) : SharedSince w' := by
  rcases Node.step_shared hstep with ⟨hreplay, hstore⟩ | ⟨l, run, ts, written, -, hrun, hpoint, hreplay, hstore⟩ |
    ⟨r, written, request, -, -, rfl⟩
  · refine ⟨fun name => ?_, fun name ts hts => ?_⟩
    · rw [hreplay]
      exact Nat.le_trans (hw.replayAt name) hgrows
    · rw [hreplay]
      exact hw.store name ts (hstore ▸ hts)
  · refine ⟨fun name => ?_, fun name ts' hts => ?_⟩
    · rw [hreplay]
      exact Nat.le_trans (hw.replayAt name) hgrows
    · rw [hreplay]
      rw [hstore] at hts
      by_cases hname : name = run.ref.string
      · subst hname
        rw [AList.lookup_insert] at hts
        cases hts
        exact (hs l run hrun (by rw [hpoint]; rfl)).state _ (by rw [hpoint]; rfl)
      · rw [AList.lookup_insert_ne hname] at hts
        exact hw.store name ts' hts
  · refine ⟨fun name => ?_, fun name ts hts => ?_⟩
    · simp only [Shared.markPending, if_true]
      split
      · exact Nat.le_refl _
      · exact hw.replayAt name
    · simp only [Shared.markPending, if_true, lookup_markPending] at hts ⊢
      split at hts
      · cases hts
        exact sinceReplay_none _
      · rename_i hname
        rw [if_neg hname]
        exact hw.store name ts hts

omit [ToString V] in
theorem string_notMem {ref : TableRef} (hplain : ref.Plain) {tables : List TableRef} (htables : ∀ ref' ∈ tables, ref'.Plain)
    (hnot : ref ∉ tables) : ref.string ∉ tables.map TableRef.string := fun hmem => by
  obtain ⟨ref', href', heq⟩ := List.mem_map.mp hmem
  obtain rfl := TableRef.string_inj (htables ref' href') hplain heq
  exact hnot href'

/-- A table that a run goes on with is not reset. -/
theorem replayAt_of_held {a : NodeAct V} (hok : NodeOk db w.history node) (hstep : node.step w a = some (w', node')) {ref : TableRef}
    (hplain : ref.Plain) (hheld : ∀ r written request, a = .mark r written → node.requests r = some request → ref ∉ request.tables) :
    w'.replayAt ref.string = w.replayAt ref.string := by
  rcases Node.step_shared hstep with ⟨hreplay, -⟩ | ⟨l, run, ts, written, -, -, -, hreplay, -⟩ |
    ⟨r, written, request, rfl, hr, rfl⟩
  · rw [hreplay]
  · rw [hreplay]
  · have hname := string_notMem hplain (hok.requests r request hr) (hheld r written request rfl hr)
    simp only [Shared.markPending, if_true, if_neg hname]

theorem NodeSince.step (hok : NodeOk db w.history node) (hw : SharedSince w) (hs : NodeSince w node) {a : NodeAct V}
    (ha : node.Assumed db w a) (hload : ∀ l ok, a = .lane l (.load ok) → ok = true)
    (hmark : ∀ r written request, a = .mark r written → node.requests r = some request → ∀ l run,
      node.lanes l = .running run → run.point.holds = true → run.ref ∉ request.tables)
    (hstep : node.step w a = some (w', node')) : NodeSince w' node' := by
  have hf := Frame.step hok hstep
  intro l run hrun hholds
  by_cases hl : a.moves l
  · -- the lane that took the step
    cases a with
    | lane l' a =>
      obtain rfl : l = l' := hl
      rcases Node.laneStep_running hstep hrun with ⟨run₀, hrun₀, hstep⟩ | ⟨ref, -, rfl⟩
      · obtain ⟨href, hsince⟩ := RunSince.step (hs l run₀ hrun₀) (hw.store run₀.ref.string) (hw.replayAt _)
          (fun ok hok => hload l ok (by rw [hok])) ha hrun₀ hstep hrun hholds
        rw [hstep.shared.1, href]
        exact hsince
      · cases hholds
    | _ => exact hl.elim
  · have hrun₀ : node.lanes l = .running run := (hf.lanes l hl).symm.trans hrun
    have hr := hok.runs l run hrun₀
    rw [replayAt_of_held hok hstep hr.plain fun r written request ha hr => hmark r written request ha hr l run hrun₀ hholds]
    refine (hs l run hrun₀ hholds).frame hf (fun i hi => ?_) fun l' run' ts _ hrun' hname hts => ?_
    · obtain ⟨hreg, hlane⟩ := hr.own i hi
      exact ⟨hreg, by rwa [hlane]⟩
    · rw [hname]
      exact (hs l' run' hrun' (RunPoint.holds_of_state hts)).state ts hts

end Since

/-! ## Tables that are done -/

section World

variable [ToString V] {N : Type} [DecidableEq N] {db : Database V} {w w' : World N V}

/-- A load does not fail, and a table is reset when no run of any node goes on
with it. -/
def World.KeepsReplays (w : World N V) : WorldAct N V → Prop
  | .node _ (.lane _ (.load ok)) => ok = true
  | .node n (.mark r _) => ∀ node request, w.nodes n = some node → node.requests r = some request →
      ∀ m node' l run, w.nodes m = some node' → node'.lanes l = .running run → run.point.holds = true → run.ref ∉ request.tables
  | _ => True

structure ReplayOk (db : Database V) (w : World N V) : Prop where
  ok : WorldOk db w
  shared : SharedSince w.shared
  nodes : ∀ n node, w.nodes n = some node → NodeSince w.shared node

omit [DecidableEq N] in
theorem replayOk_start (db : Database V) : ReplayOk db ({} : World N V) where
  ok := worldOk_start db
  shared := ⟨fun _ => Nat.le_refl _, fun _ _ hts => by cases hts⟩
  nodes _ _ hn := nomatch hn

omit [DecidableEq N] in
theorem ReplayOk.append (hw : ReplayOk db w) {items : List (Item V)}
    (hok : WorldOk db (w.onHistory { w.shared.history with wal := w.shared.history.wal ++ items })) :
    ReplayOk db (w.onHistory { w.shared.history with wal := w.shared.history.wal ++ items }) where
  ok := hok
  shared := ⟨fun name => Nat.le_trans (hw.shared.replayAt name) (by simp [World.onHistory]), hw.shared.store⟩
  nodes := hw.nodes

/-- A node boots or crashes. -/
theorem ReplayOk.setNode (hw : ReplayOk db w) {n : N} {node : Option (Node V)} (hok : WorldOk db (w.setNode n node))
    (hidle : ∀ node', node = some node' → ∀ l run, node'.lanes l ≠ .running run) : ReplayOk db (w.setNode n node) where
  ok := hok
  shared := hw.shared
  nodes m node' hm := by
    by_cases hmn : m = n
    · subst hmn
      simp only [World.setNode, Function.update_self] at hm
      exact fun l run hrun => absurd hrun (hidle node' hm l run)
    · simp only [World.setNode, Function.update_of_ne hmn] at hm
      exact hw.nodes m node' hm

omit [ToString V] in
/-- A node that has just started does not stream and runs nothing. -/
theorem startNode_idle (cfg : Config) (instanceID : String) (store : StateMap) (names : List String) (loaded : Bool) :
    (startNode cfg instanceID store names loaded : Node V).coordinator.streaming = false ∧
      ∀ l run, (startNode cfg instanceID store names loaded : Node V).lanes l ≠ .running run := by
  have hlane : ∀ (l n : ℕ) (run : Run), (if l < n then Lane.ready else .stopped) ≠ .running run := fun l n run => by
    split <;> simp
  refine ⟨?_, fun l run => hlane l _ run⟩
  cases loaded with
  | false => rfl
  | true => exact (Coordinator.foldl_chunks Coordinator.startTable_chunks names _).streaming

omit [ToString V] in
/-- A node is the one that took the step, or was there before. -/
theorem update_node_cases {n m : N} {node c : Node V} (hc : Function.update w.nodes n (some node) m = some c) :
    m = n ∧ c = node ∨ m ≠ n ∧ w.nodes m = some c := by
  by_cases hmn : m = n
  · subst hmn
    simp only [Function.update_self, Option.some.injEq] at hc
    exact .inl ⟨rfl, hc.symm⟩
  · simp only [Function.update_of_ne hmn] at hc
    exact .inr ⟨hmn, hc⟩

theorem ReplayOk.node (hw : ReplayOk db w) {n : N} {node node' : Node V} (hn : w.nodes n = some node) {a : NodeAct V}
    (ha : w.Assumed db (.node n a)) (hplain : a.Plain) (hkeeps : w.KeepsReplays (.node n a)) {shared : Shared V}
    (hstep : node.step w.shared a = some (shared, node'))
    (hok : WorldOk db { shared, nodes := Function.update w.nodes n (some node') }) :
    ReplayOk db { shared, nodes := Function.update w.nodes n (some node') } := by
  have hnode := hw.ok.nodes n node hn
  have hgrows := (hnode.step hw.ok.store (ha node hn) hplain hstep).grows.wal.length_le
  have hload : ∀ l ok, a = .lane l (.load ok) → ok = true := fun l ok heq => by
    subst heq
    exact hkeeps
  have hmark : ∀ r written request, a = .mark r written → node.requests r = some request → ∀ m node' l run,
      w.nodes m = some node' → node'.lanes l = .running run → run.point.holds = true → run.ref ∉ request.tables := by
    intro r written request heq hr
    subst heq
    exact hkeeps node request hn hr
  refine ⟨hok, hw.shared.step (hw.nodes n node hn) hgrows hstep, fun m c hc => ?_⟩
  rcases update_node_cases hc with ⟨rfl, rfl⟩ | ⟨hmn, hc⟩
  · exact (hw.nodes m node hn).step hnode hw.shared (ha node hn) hload
      (fun r written request heq hr l run hrun => hmark r written request heq hr m node l run hn hrun) hstep
  · -- no one resets a table that a run of another node goes on with
    intro l run hrun hholds
    rw [replayAt_of_held hnode hstep ((hw.ok.nodes m c hc).runs l run hrun).plain
      fun r written request heq hr => hmark r written request heq hr m c l run hc hrun hholds]
    exact hw.nodes m c hc l run hrun hholds

theorem ReplayOk.step (hw : ReplayOk db w) {a : WorldAct N V} (ha : w.Assumed db a) (hplain : a.Plain)
    (hkeeps : w.KeepsReplays a) (hstep : w.step a = some w') : ReplayOk db w' := by
  have hok := hw.ok.step ha hplain hstep
  cases World.steps_of_step hstep with
  | commit | foreign => exact hw.append hok
  | @boot n cfg instanceID names loaded =>
    refine hw.setNode hok fun node' hnode => ?_
    cases hnode
    exact (startNode_idle cfg instanceID w.shared.store names loaded).2
  | crash => exact hw.setNode hok fun node' hnode => by cases hnode
  | node hn hnode => exact hw.node hn ha hplain hkeeps hnode hok

omit [DecidableEq N] in
/-- **Done tables**: a table that is persisted as done has delivered every row
that has not changed since its last replay. -/
theorem ReplayOk.delivered (hw : ReplayOk db w) {ref : TableRef} (hplain : ref.Plain) {ts : TableState}
    (hts : w.shared.store.lookup ref.string = some ts) (hdone : ts.done = true) {key : String} {values : Data V}
    (hrow : db.Unchanged w.shared.history.wal (w.shared.replayAt ref.string) ref key values) :
    Delivered w.shared.history ref (w.shared.replayAt ref.string) { key, values } := by
  have hprogress := hw.ok.store ref hplain ts hts
  obtain ⟨b, hb⟩ : ∃ b, ts.began = some b := Option.ne_none_iff_exists'.mp fun hnone => by
    rw [(hprogress.fresh hnone).2] at hdone
    cases hdone
  have hcovers := hprogress.covers b hb
  have hlow : w.shared.replayAt ref.string ≤ b.low := hw.shared.store _ ts hts b hb
  have hlt := hcovers.low
  -- no change of the row comes after the replay, so none between the run's low watermark and its select
  have hquiet : ∀ n event, w.shared.replayAt ref.string ≤ n → w.shared.history.wal[n]? = some (.change event) →
      ¬ Touches db.primaryKey event (ref, key) := fun n event hn hitem =>
    hrow.2 event (mem_changes_drop.mpr ⟨n, hn, hitem⟩)
  have hlater : db.Unchanged w.shared.history.wal b.snapshot ref key values := by
    refine ⟨?_, fun event hevent => ?_⟩
    · rw [Database.source, changes_take (show w.shared.replayAt ref.string ≤ b.snapshot by omega), Lib.Journal.replay_append,
        Lib.Journal.replay_frame]
      · exact hrow.1
      · intro event hevent
        obtain ⟨n, hn, -, hitem⟩ := mem_between.mp hevent
        exact hquiet n event hn hitem
    · obtain ⟨n, hn, hitem⟩ := mem_changes_drop.mp hevent
      exact hquiet n event (by omega) hitem
  rcases hcovers.rows key values hlater (.inl hdone) with hdelivered | ⟨event, hevent, href, hkey⟩
  · exact hdelivered.mono (.refl _) hlow
  · obtain ⟨n, hn, -, hitem⟩ := mem_between.mp hevent
    exact absurd (touches_of_observedKey db.primaryKey href hkey) (hquiet n event (by omega) hitem)

end World

end Gtc.Backfill
