/-
Backfills are complete: what a state table says is covered has been delivered.

`NodeOk` is what holds of a node, whatever the other nodes do: its chunks are
`Sound`, its runs are `RunOk`, and the progress it has cached says nothing that
is not so. `WorldOk` adds the same for the state table, and that the nodes'
chunk ids never meet. Every step keeps it: a crash loses a node's runs, but
what they had covered is in the log and the reports.
-/
import Gtc.Backfill.Runs
import Gtc.Lib.History

namespace Gtc.Backfill

open Lib

variable {V : Type}

/-! ## What the steps leave alone -/

namespace Coordinator

/-- Everything about chunks is the same. -/
structure SameChunks (c c' : Coordinator V) : Prop where
  cfg : c'.cfg = c.cfg
  instanceID : c'.instanceID = c.instanceID
  chunkSeq : c'.chunkSeq = c.chunkSeq
  chunks : c'.chunks = c.chunks
  inflight : c'.inflight = c.inflight
  streaming : c'.streaming = c.streaming

theorem SameChunks.refl (c : Coordinator V) : SameChunks c c := ⟨rfl, rfl, rfl, rfl, rfl, rfl⟩

theorem SameChunks.trans {c₁ c₂ c₃ : Coordinator V} (h : SameChunks c₁ c₂) (h' : SameChunks c₂ c₃) : SameChunks c₁ c₃ :=
  ⟨h'.cfg.trans h.cfg, h'.instanceID.trans h.instanceID, h'.chunkSeq.trans h.chunkSeq, h'.chunks.trans h.chunks,
    h'.inflight.trans h.inflight, h'.streaming.trans h.streaming⟩

theorem SameChunks.evolves {c c' : Coordinator V} (h : SameChunks c c') : Evolves c c' where
  cfg := h.cfg
  instanceID := h.instanceID
  chunkSeq := h.chunkSeq
  inflight i hi := h.inflight ▸ hi
  id i := by rw [h.chunks]
  table i := by rw [h.chunks]
  pkCols i := by rw [h.chunks]

theorem setStatus_chunks (c : Coordinator V) (ref : TableRef) (update : BackfillTableStatus → BackfillTableStatus) :
    SameChunks c (c.setStatus ref update) := ⟨rfl, rfl, rfl, rfl, rfl, rfl⟩

theorem setState_chunks (c : Coordinator V) (name : String) (ts : TableState) : SameChunks c (c.setState name ts) :=
  ⟨rfl, rfl, rfl, rfl, rfl, rfl⟩

theorem forget_chunks (c : Coordinator V) (name : String) : SameChunks c (c.forget name) := ⟨rfl, rfl, rfl, rfl, rfl, rfl⟩

theorem enqueueLocked_chunks (c : Coordinator V) (ref : TableRef) : SameChunks c (c.enqueueLocked ref) := by
  unfold enqueueLocked
  dsimp only
  split <;> exact ⟨rfl, rfl, rfl, rfl, rfl, rfl⟩

theorem enqueueLocked_tables (c : Coordinator V) (ref : TableRef) :
    (c.enqueueLocked ref).queue = c.queue ++ [ref] ∧ (c.enqueueLocked ref).state = c.state := by
  unfold enqueueLocked
  dsimp only
  split <;> exact ⟨rfl, rfl⟩

theorem startTable_chunks (c : Coordinator V) (name : String) : SameChunks c (c.startTable name) := by
  unfold startTable
  repeat' split
  · exact ⟨rfl, rfl, rfl, rfl, rfl, rfl⟩
  · exact .refl c
  · exact (c.enqueueLocked_chunks _).trans (setStatus_chunks _ _ _)
  · exact .refl c

/-- `Start` queues plain tables only. -/
theorem startTable_tables (c : Coordinator V) (name : String) :
    (c.startTable name).state = c.state ∧ ∀ ref ∈ (c.startTable name).queue, ref ∈ c.queue ∨ ref.Plain := by
  unfold startTable
  split
  · rename_i ref ts hsplit _
    split
    · exact ⟨rfl, fun _ href => .inl href⟩
    · split
      · exact ⟨rfl, fun _ href => .inl href⟩
      · obtain ⟨hqueue, hstate⟩ := c.enqueueLocked_tables ref
        refine ⟨hstate, fun ref' href => ?_⟩
        have hmem : ref' ∈ c.queue ++ [ref] := hqueue ▸ href
        rcases List.mem_append.mp hmem with hmem | hmem
        · exact .inl hmem
        · rw [List.mem_singleton.mp hmem]
          exact .inr (splitTableName_spec hsplit).1
  · exact ⟨rfl, fun _ href => .inl href⟩

theorem grantTable_chunks (kind : RequestKind) (c : Coordinator V) (ref : TableRef) :
    SameChunks c (grantTable kind c ref) := by
  unfold grantTable
  repeat' split
  · exact .refl c
  · exact c.enqueueLocked_chunks ref
  · exact (c.forget_chunks ref.string).trans ((c.forget ref.string).enqueueLocked_chunks ref)

/-- A granted request queues its tables, and forgets progress but makes none up. -/
theorem grantTable_tables (kind : RequestKind) (c : Coordinator V) (ref : TableRef) :
    (∀ name ts, (grantTable kind c ref).state.lookup name = some ts → c.state.lookup name = some ts) ∧
      ∀ ref' ∈ (grantTable kind c ref).queue, ref' ∈ c.queue ∨ ref' = ref := by
  unfold grantTable
  split
  · exact ⟨fun _ _ hts => hts, fun _ href => .inl href⟩
  · have henqueue : ∀ c' : Coordinator V, c'.queue = c.queue →
        (∀ name ts, c'.state.lookup name = some ts → c.state.lookup name = some ts) →
        (∀ name ts, (c'.enqueueLocked ref).state.lookup name = some ts → c.state.lookup name = some ts) ∧
          ∀ ref' ∈ (c'.enqueueLocked ref).queue, ref' ∈ c.queue ∨ ref' = ref := by
      intro c' hq hs
      obtain ⟨hqueue, hstate⟩ := c'.enqueueLocked_tables ref
      rw [hqueue, hstate, hq]
      exact ⟨hs, fun ref' href => by simpa using href⟩
    split
    · exact henqueue c rfl fun _ _ hts => hts
    · refine henqueue _ rfl fun name ts hts => ?_
      by_cases hname : name = ref.string
      · subst hname
        simp [forget] at hts
      · simpa [forget, AList.lookup_erase_ne hname] using hts

/-- What is not about chunks is the same. -/
structure SameTables (c c' : Coordinator V) : Prop where
  cfg : c'.cfg = c.cfg
  instanceID : c'.instanceID = c.instanceID
  queue : c'.queue = c.queue
  running : c'.running = c.running
  state : c'.state = c.state
  status : c'.status = c.status
  wake : c'.wake = c.wake

theorem SameTables.refl (c : Coordinator V) : SameTables c c := ⟨rfl, rfl, rfl, rfl, rfl, rfl, rfl⟩

/-- A fold of critical sections that each leave the chunks alone. -/
theorem foldl_chunks {α : Type} {f : Coordinator V → α → Coordinator V} (hf : ∀ c a, SameChunks c (f c a)) (as : List α)
    (c : Coordinator V) : SameChunks c (as.foldl f c) := by
  induction as generalizing c with
  | nil => exact .refl c
  | cons a as ih => exact (hf c a).trans (ih (f c a))

end Coordinator

section Process

variable [ToString V] {h h' : History V} {p p' : Process V} {a : ProcessAct V}

/-- A step on chunks leaves the tables alone. -/
theorem Process.step_tables (hstep : p.step h a = some (h', p')) : p.coordinator.SameTables p'.coordinator := by
  cases Process.steps_of_step hstep with
  | @select _ answer => cases answer <;> exact .refl _
  | publish =>
    simp only [Process.publish, Process.setCall, Coordinator.publish]
    split <;> exact ⟨rfl, rfl, rfl, rfl, rfl, rfl, rfl⟩
  | abandon =>
    simp only [Coordinator.abandon_eq]
    exact ⟨rfl, rfl, rfl, rfl, rfl, rfl, rfl⟩
  | up =>
    simp only [Coordinator.onStreamStart]
    split <;> exact ⟨rfl, rfl, rfl, rfl, rfl, rfl, rfl⟩
  | down =>
    simp only [Coordinator.onStreamStop]
    split <;> exact ⟨rfl, rfl, rfl, rfl, rfl, rfl, rfl⟩
  | @take _ _ _ item =>
    cases item with
    | mark content =>
      simp only [Process.take, Process.handleWatermark, Coordinator.handleWatermark]
      repeat' split
      all_goals exact ⟨rfl, rfl, rfl, rfl, rfl, rfl, rfl⟩
    | _ => exact ⟨rfl, rfl, rfl, rfl, rfl, rfl, rfl⟩
  | delivered =>
    simp only [Process.delivered, Coordinator.watermarkDelivered]
    repeat' split
    all_goals exact ⟨rfl, rfl, rfl, rfl, rfl, rfl, rfl⟩
  | _ => exact ⟨rfl, rfl, rfl, rfl, rfl, rfl, rfl⟩

/-- What a process adds to the log carries the ids of its own chunks. -/
theorem Process.step_marks {db : Database V} (hs : Sound db h p) (hstep : p.step h a = some (h', p')) {q : ℕ}
    {payload : WatermarkPayload} (hq : h.wal.length ≤ q) (hitem : h'.wal[q]? = some (.mark (some payload))) :
    ∃ ref i, payload.chunk = chunkID p.coordinator.instanceID ref i := by
  rcases Process.step_wal hstep with hwal | ⟨i, mark, hstage, hwal⟩
  · rw [hwal] at hitem
    exact absurd (lt_length hitem) (Nat.not_lt.mpr hq)
  · rw [hwal, List.getElem?_append_right hq] at hitem
    have hown : payload = p.watermark i mark := by
      simpa using List.mem_of_getElem? hitem
    rw [hown]
    exact ⟨_, i, hs.valid.id i (hs.registered i hstage)⟩

end Process

/-! ## Nodes -/

section Nodes

variable [ToString V] {db : Database V} {h h' : History V} {node : Node V} {l : ℕ}

/-- Every row of a state map says what is so. -/
def StateOk (db : Database V) (h : History V) (state : StateMap) : Prop :=
  ∀ ref, ref.Plain → ∀ ts, state.lookup ref.string = some ts → Progress db h ref ts

theorem StateOk.mono {state : StateMap} (hs : StateOk db h state) (hx : h.Extends h') : StateOk db h' state :=
  fun ref hplain ts hts => (hs ref hplain ts hts).mono hx

theorem StateOk.insert {state : StateMap} (hs : StateOk db h state) {ref : TableRef} (hplain : ref.Plain) {ts : TableState}
    (hts : Progress db h ref ts) : StateOk db h (state.insert ref.string ts) := by
  intro ref' hplain' ts' hts'
  by_cases href : ref'.string = ref.string
  · rw [href, AList.lookup_insert] at hts'
    cases hts'
    rwa [TableRef.string_inj hplain' hplain href]
  · rw [AList.lookup_insert_ne href] at hts'
    exact hs ref' hplain' ts' hts'

structure NodeOk (db : Database V) (h : History V) (node : Node V) : Prop where
  sound : Sound db h node.process
  dashFree : '-' ∉ node.coordinator.instanceID.toList
  chunkSize : 0 < node.coordinator.cfg.chunkSize
  state : StateOk db h node.coordinator.state
  queue : ∀ ref ∈ node.coordinator.queue, ref.Plain
  requests : ∀ r request, node.requests r = some request → ∀ ref ∈ request.tables, ref.Plain
  runs : ∀ l run, node.lanes l = .running run → RunOk db h node.process l run

/-- What others add to the log changes nothing for a node. -/
theorem NodeOk.extends (hn : NodeOk db h node) (hx : h.Extends h')
    (hmarks : ∀ q payload, h.wal.length ≤ q → h'.wal[q]? = some (.mark (some payload)) → ∀ ref i,
      payload.chunk ≠ chunkID node.coordinator.instanceID ref i) : NodeOk db h' node where
  sound := hn.sound.extends hx hmarks
  dashFree := hn.dashFree
  chunkSize := hn.chunkSize
  state := hn.state.mono hx
  queue := hn.queue
  requests := hn.requests
  runs l run hrun := by
    have hr := hn.runs l run hrun
    obtain ⟨start, hchain, -⟩ := hr.window
    exact hr.keeps hx (fun i hi => .of_eq (hchain.returned i hi).1 rfl rfl) fun i hi => .of_eq (hr.own i hi).1 rfl rfl

variable {a : ProcessAct V} {lanes : ℕ → Lane} {c : Coordinator V} {lane : Lane}

/-- A step on chunks, by the lane `l` if it is about one. -/
theorem NodeOk.process (hn : NodeOk db h node) (ha : node.process.Assumed db h a) {p' : Process V}
    (hstep : node.process.step h a = some (h', p')) (hown : ∀ i, a.chunk? = some i → (node.process.calls i).lane = l)
    (hlanes : ∀ j, j ≠ l → lanes j = node.lanes j) (hlane : ∀ run, lanes l = .running run → RunOk db h' p' l run) :
    NodeOk db h' { node with process := p', lanes } := by
  have hx := Process.step_extends hstep
  have htables := Process.step_tables hstep
  refine ⟨hn.sound.step ha hstep, ?_, ?_, ?_, ?_, hn.requests, fun j run hrun => ?_⟩
  · simp only [Node.coordinator, htables.instanceID]
    exact hn.dashFree
  · simp only [Node.coordinator, htables.cfg]
    exact hn.chunkSize
  · simp only [Node.coordinator, htables.state]
    exact hn.state.mono hx
  · simp only [Node.coordinator, htables.queue]
    exact hn.queue
  · by_cases hj : j = l
    · subst hj
      exact hlane run hrun
    · -- the chunks of another lane are kept: those of its window have returned, and the one it starts is its own
      replace hrun : node.lanes j = .running run := (hlanes j hj).symm.trans hrun
      have hr := hn.runs j run hrun
      obtain ⟨start, hchain, -⟩ := hr.window
      refine hr.keeps hx (fun i hi => ?_) fun i hi => ?_
      · obtain ⟨hreg, hstage⟩ := hchain.returned i hi
        exact Process.step_keeps hstep hreg fun _ => hstage
      · obtain ⟨hreg, hlab⟩ := hr.own i hi
        exact Process.step_keeps hstep hreg fun hi' => absurd (hlab.symm.trans (hown i hi')) hj

/-- A critical section on the tables. -/
theorem NodeOk.keep (hn : NodeOk db h node) (hc : node.coordinator.SameChunks c)
    (hstate : StateOk db h c.state) (hqueue : ∀ ref ∈ c.queue, ref.Plain)
    (hlanes : ∀ j, j ≠ l → lanes j = node.lanes j)
    (hlane : ∀ run, lanes l = .running run → RunOk db h node.process l run) :
    NodeOk db h { node with process := { node.process with coordinator := c }, lanes } := by
  refine ⟨hn.sound.evolves hc.evolves hc.chunks, ?_, ?_, hstate, hqueue, hn.requests, fun j run hrun => ?_⟩
  · show '-' ∉ c.instanceID.toList
    rw [hc.instanceID]
    exact hn.dashFree
  · show 0 < c.cfg.chunkSize
    rw [hc.cfg]
    exact hn.chunkSize
  · have hr : RunOk db h node.process j run := by
      by_cases hj : j = l
      · subst hj
        exact hlane run hrun
      · exact hn.runs j run ((hlanes j hj).symm.trans hrun)
    obtain ⟨start, hchain, -⟩ := hr.window
    exact hr.keeps (.refl h)
      (fun i hi => .of_eq ((hchain.returned i hi).1.evolves hc.evolves) rfl (congrFun hc.chunks i))
      fun i hi => .of_eq ((hr.own i hi).1.evolves hc.evolves) rfl (congrFun hc.chunks i)

/-! ## Steps of a node -/

/-- What the database is assumed to answer a node. -/
def Node.Assumed (db : Database V) (w : Shared V) (node : Node V) : NodeAct V → Prop
  | .lane l (.primaryKey (.ok pkCols)) => ∀ run, node.lanes l = .running run → pkCols = db.primaryKey run.ref
  | .lane l (.select (.ok selection)) => ∀ run i, node.lanes l = .running run → run.point = .starting i →
      node.process.Assumed db w.history (.select i (some selection))
  | _ => True

/-- Only tables whose schemas have no dot are asked for. -/
def NodeAct.Plain : NodeAct V → Prop
  | .request _ _ tables => ∀ ref ∈ tables, ref.Plain
  | _ => True

variable {w w' : Shared V} {node' : Node V}

structure StepOk (db : Database V) (w : Shared V) (node : Node V) (w' : Shared V) (node' : Node V) : Prop where
  ok : NodeOk db w'.history node'
  store : StateOk db w'.history w'.store
  grows : w.history.Extends w'.history
  marks : ∀ q payload, w.history.wal.length ≤ q → w'.history.wal[q]? = some (.mark (some payload)) →
    ∃ ref i, payload.chunk = chunkID node.coordinator.instanceID ref i
  instanceID : node'.coordinator.instanceID = node.coordinator.instanceID

/-- A step that adds nothing to the log. -/
theorem StepOk.quiet (hn : NodeOk db w.history node') (hw : StateOk db w.history w'.store) (hhistory : w'.history = w.history)
    (hinstance : node'.coordinator.instanceID = node.coordinator.instanceID) : StepOk db w node w' node' where
  ok := hhistory ▸ hn
  store := hhistory ▸ hw
  grows := hhistory ▸ .refl w.history
  marks _ _ hq hitem := absurd (lt_length (hhistory ▸ hitem)) (Nat.not_lt.mpr hq)
  instanceID := hinstance

/-- A critical section on the tables. -/
theorem StepOk.keep (hn : NodeOk db w.history node) (hw : StateOk db w.history w.store)
    (hc : node.coordinator.SameChunks c) (hstate : StateOk db w.history c.state) (hqueue : ∀ ref ∈ c.queue, ref.Plain)
    (hlane : ∀ run, lane = .running run → RunOk db w.history node.process l run) :
    StepOk db w node w ((node.keep c).setLane l lane) := by
  refine .quiet (hn.keep hc hstate hqueue (fun _ hj => Function.update_of_ne hj _ _) fun run hrun => ?_) hw rfl hc.instanceID
  exact hlane run ((Function.update_self ..).symm.trans hrun)

/-- A critical section that only touches statuses. -/
theorem StepOk.status (hn : NodeOk db w.history node) (hw : StateOk db w.history w.store) (ref : TableRef)
    (update : BackfillTableStatus → BackfillTableStatus)
    (hlane : ∀ run, lane = .running run → RunOk db w.history node.process l run) :
    StepOk db w node w ((node.keep (node.coordinator.setStatus ref update)).setLane l lane) :=
  .keep hn hw (Coordinator.setStatus_chunks _ _ _) hn.state hn.queue hlane

/-- A critical section that only touches the schedule. -/
theorem StepOk.schedule (hn : NodeOk db w.history node) (hw : StateOk db w.history w.store) {queue : List TableRef}
    (hqueue : ∀ ref ∈ queue, ref.Plain) (running : List TableRef) (wake : ℕ)
    (hlane : ∀ run, lane = .running run → RunOk db w.history node.process l run) :
    StepOk db w node w ((node.keep { node.coordinator with queue, running, wake }).setLane l lane) := by
  have hc : node.coordinator.SameChunks { node.coordinator with queue, running, wake } := ⟨rfl, rfl, rfl, rfl, rfl, rfl⟩
  exact .keep hn hw hc hn.state hqueue hlane

/-- A step of the lane alone. -/
theorem StepOk.local (hn : NodeOk db w.history node) (hw : StateOk db w.history w.store)
    (hlane : ∀ run, lane = .running run → RunOk db w.history node.process l run) : StepOk db w node w (node.setLane l lane) :=
  .keep hn hw (.refl _) hn.state hn.queue hlane

/-- A step on chunks. -/
theorem StepOk.chunks (hn : NodeOk db w.history node) (hw : StateOk db w.history w.store)
    {h : History V} {p : Process V} (hstep : node.process.step w.history a = some (h, p))
    (ha : node.process.Assumed db w.history a) (hown : ∀ i, a.chunk? = some i → (node.process.calls i).lane = l)
    (hlanes : ∀ j, j ≠ l → lanes j = node.lanes j) (hlane : ∀ run, lanes l = .running run → RunOk db h p l run) :
    StepOk db w node { w with history := h } { node with process := p, lanes } where
  ok := hn.process ha hstep hown hlanes hlane
  store := hw.mono (Process.step_extends hstep)
  grows := Process.step_extends hstep
  marks _ _ hq hitem := Process.step_marks hn.sound hstep hq hitem
  instanceID := (Process.step_tables hstep).instanceID

/-- What is remembered of first selects changes nothing. -/
theorem StepOk.note (hs : StepOk db w node w' node') {ref : TableRef} {cursor : List String} {w'' : Shared V} {node'' : Node V}
    (hnote : node'.noteSelect w' ref cursor = (w'', node'')) : StepOk db w node w'' node'' := by
  obtain ⟨firsts, selected, -, rfl, rfl⟩ := Node.noteSelect_eq hnote
  exact ⟨⟨hs.ok.sound, hs.ok.dashFree, hs.ok.chunkSize, hs.ok.state, hs.ok.queue, hs.ok.requests, hs.ok.runs⟩, hs.store,
    hs.grows, hs.marks, hs.instanceID⟩

/-- The chunks of a lane's window are kept by any step. -/
theorem NodeOk.window_keeps (hn : NodeOk db h node) {run : Run} (hrun : node.lanes l = .running run)
    {p : Process V} (hstep : node.process.step h a = some (h', p)) : ∀ i ∈ run.window, node.process.Keeps p i := by
  obtain ⟨start, hchain, -⟩ := (hn.runs l run hrun).window
  intro i hi
  obtain ⟨hreg, hstage⟩ := hchain.returned i hi
  exact Process.step_keeps hstep hreg fun _ => hstage

theorem NodeOk.runStep (hn : NodeOk db w.history node) (hw : StateOk db w.history w.store) {run : Run} {a : LaneAct V}
    (ha : node.Assumed db w (.lane l a)) (hrun : node.lanes l = .running run)
    (hstep : Node.RunSteps w node l run a w' node') : StepOk db w node w' node' := by
  have hr := hn.runs l run hrun
  -- the run of a lane that goes on to another point of the same run
  have hgo : ∀ {run' : Run}, RunOk db w.history node.process l run' → ∀ run'', Lane.running run' = .running run'' →
      RunOk db w.history node.process l run'' := fun hr' run'' heq => by
    cases heq
    exact hr'
  -- the same when the step is one on chunks, and when the lane stays at its point
  have hset : ∀ {h' : History V} {p' : Process V} {run' : Run}, RunOk db h' p' l run' →
      ∀ run'', Function.update node.lanes l (.running run') l = .running run'' → RunOk db h' p' l run'' :=
    fun hr' run'' heq => by
      rw [Function.update_self] at heq
      cases heq
      exact hr'
  have hsame : ∀ {h' : History V} {p' : Process V}, RunOk db h' p' l run →
      ∀ run'', node.lanes l = .running run'' → RunOk db h' p' l run'' := fun hr' run'' heq => by
    rw [hrun] at heq
    cases heq
    exact hr'
  cases hstep with
  | @primaryKey answer hpoint =>
    refine .local hn hw (hgo (hr.primaryKey hpoint fun pkCols hanswer => ?_))
    subst hanswer
    exact ha run hrun
  | skip hpoint => exact .status hn hw _ _ (hgo (hr.exit rfl rfl rfl rfl))
  | @load ok hpoint =>
    refine .local hn hw (hgo (hr.goto (fun _ => hr.pkCols (by rw [hpoint]; rfl)) (fun ts hts => ?_) rfl
      fun _ => by rw [hpoint]; rfl))
    cases ok with
    | false => cases hts
    | true =>
      cases hlookup : w.store.lookup run.ref.string with
      | none => simp [hlookup, RunPoint.state?] at hts
      | some st =>
        simp only [hlookup, if_true, RunPoint.state?, Option.some.injEq] at hts
        subst hts
        exact hw run.ref hr.plain st hlookup
  | reloadFailed hpoint => exact .keep hn hw (.refl _) hn.state hn.queue (hgo (hr.reloaded hpoint))
  | notFound hpoint =>
    refine .keep hn hw (Coordinator.forget_chunks _ _) (fun ref hplain ts hts => ?_) hn.queue (hgo (hr.reloaded hpoint))
    by_cases hname : ref.string = run.ref.string
    · rw [Coordinator.forget, hname, AList.lookup_erase] at hts
      cases hts
    · rw [Coordinator.forget, AList.lookup_erase_ne hname] at hts
      exact hn.state ref hplain ts hts
  | found hpoint =>
    exact .keep hn hw (Coordinator.setState_chunks _ _ _) (hn.state.insert hr.plain (hr.state _ (by rw [hpoint]; rfl)))
      hn.queue (hgo (hr.reloaded hpoint))
  | already hpoint => exact .status hn hw _ _ (hgo (hr.exit rfl rfl rfl rfl))
  | resume hpoint =>
    refine .local hn hw (hgo (hr.resume (by rw [hpoint]; rfl) ?_))
    cases hlookup : node.coordinator.state.lookup run.ref.string with
    | none => exact progress_pending db w.history run.ref
    | some ts => exact hn.state run.ref hr.plain ts hlookup
  | announce hpoint => exact .status hn hw _ _ (hgo (hr.move (by rw [hpoint]; rfl) (by rw [hpoint]; rfl) rfl rfl))
  | fill hpoint => exact .local hn hw (hgo (hr.fill hpoint))
  | waitForStream hpoint => exact .local hn hw (hgo (hr.move (by rw [hpoint]; rfl) (by rw [hpoint]; rfl) rfl rfl))
  | register hpoint hstep =>
    have hpk : run.pkCols = db.primaryKey run.ref := hr.pkCols (by rw [hpoint]; rfl)
    have hstep' := hstep
    cases hstep'
    exact .chunks hn hw hstep hpk (fun _ hi => nomatch hi) (fun _ hj => Function.update_of_ne hj _ _)
      (hset (hr.registered hpoint))
  | @emitted i a written h p hpoint ha' hstep =>
    have hi := hr.starts hpoint
    have hassumed : node.process.Assumed db w.history a := by
      rcases ha' with rfl | rfl <;> trivial
    refine .chunks hn hw hstep hassumed (fun j hj => ?_) (fun _ _ => rfl) (hsame ?_)
    · rcases ha' with rfl | rfl <;> cases hj <;> exact hi.lane
    · exact hr.onChunk (Process.step_extends hstep) hpoint (hn.window_keeps hrun hstep) (hr.emits hn.sound hpoint ha' hstep)
  | @emitFailed i a written err err' h p hpoint ha' hstep =>
    have hi := hr.starts hpoint
    have hi' := hr.emits hn.sound hpoint ha' hstep
    have hassumed : node.process.Assumed db w.history a := by
      rcases ha' with rfl | rfl <;> trivial
    refine .chunks hn hw hstep hassumed (fun j hj => ?_) (fun _ hj => Function.update_of_ne hj _ _) (hset ?_)
    · rcases ha' with rfl | rfl <;> cases hj <;> exact hi.lane
    · exact hr.abandoning (Process.step_extends hstep) hpoint (hn.window_keeps hrun hstep) hi'.registered hi'.lane _
  | @selected i snapshot chunk h p hpoint hstep w' node' hnote =>
    have hi := hr.starts hpoint
    have hassumed := ha run i hrun hpoint
    refine .note (.chunks hn hw hstep hassumed (fun j hj => by cases hj; exact hi.lane)
      (fun _ hj => Function.update_of_ne hj _ _) (hset ?_)) hnote
    obtain ⟨low, hlow, hlt, hboundary, -⟩ := hassumed
    have hwindow := hn.window_keeps hrun hstep
    cases Process.steps_of_step hstep with
    | select hstage =>
      have hunselected := (hn.sound.call i hi.registered).unselected (.inr hstage)
      have hgetD : ((node.process.select i (some (snapshot, chunk))).calls i).low.getD 0 = low := by
        simp [Process.select, Process.setCall, hlow]
      rw [hgetD]
      exact hr.selected hpoint hunselected hlow hlt hboundary.1 hwindow
  | selectFailed hpoint hstep =>
    have hi := hr.starts hpoint
    refine .chunks hn hw hstep trivial (fun j hj => by cases hj; exact hi.lane) (fun _ hj => Function.update_of_ne hj _ _)
      (hset ?_)
    have hwindow := hn.window_keeps hrun hstep
    cases Process.steps_of_step hstep with
    | select hstage =>
      refine hr.abandoning (.refl _) hpoint hwindow hi.registered ?_ _
      simp only [Process.select, Process.setCall, Function.update_self]
      exact hi.lane
  | publish hpoint hstep =>
    have hi := hr.starts hpoint
    exact .chunks hn hw hstep trivial (fun j hj => by cases hj; exact hi.lane) (fun _ _ => rfl)
      (hsame (hr.onChunk (Process.step_extends hstep) hpoint (hn.window_keeps hrun hstep) (hr.publishes hpoint hstep)))
  | started hpoint hstage =>
    obtain ⟨s, chunk, hsel, -⟩ := (hn.sound.call _ (hr.starts hpoint).registered).published (.inr hstage)
    exact .local hn hw (hgo (hr.started hpoint hstage (by simp [hsel]) _))
  | fail hpoint hstep =>
    obtain ⟨-, hlane⟩ := hr.own _ (by rw [hpoint]; rfl)
    have hwindow := hn.window_keeps hrun hstep
    exact .chunks hn hw hstep trivial (fun j hj => by cases hj; exact hlane) (fun _ hj => Function.update_of_ne hj _ _)
      (hset (hr.leaves (Process.step_extends hstep) hwindow rfl rfl rfl rfl))
  | restart hpoint hwindow hrestarted hstep =>
    have hmoved : RunOk db _ _ l run := hr.keeps (Process.step_extends hstep) (hn.window_keeps hrun hstep) fun i hi => by
      rw [hpoint] at hi
      cases hi
    exact .chunks hn hw hstep trivial (fun _ hi => nomatch hi) (fun _ hj => Function.update_of_ne hj _ _)
      (hset (hmoved.restart (by rw [hpoint]; rfl)))
  | done hpoint hwindow hdone => exact .local hn hw (hgo (hr.delivered hn.sound hpoint hwindow hdone hn.chunkSize))
  | record hpoint =>
    have hts := hr.state _ (by rw [hpoint]; rfl)
    refine .keep hn hw (Coordinator.setState_chunks _ _ _) (hn.state.insert hr.plain hts) hn.queue
      (hgo (hr.goto (fun _ => hr.pkCols (by rw [hpoint]; rfl)) (fun ts' hts' => ?_) rfl fun hfinal => ?_))
    · cases hts'
      exact hts
    · rw [hpoint]
      exact hfinal
  | @save ts written hpoint =>
    have hts := hr.state _ (by rw [hpoint]; rfl)
    have hstep : StepOk db w node w (node.setRun l { run with point := .saved ts }) :=
      .local hn hw (hgo (hr.goto (fun _ => hr.pkCols (by rw [hpoint]; rfl)) (fun _ hts' => nomatch hts') rfl
        fun hfinal => by rw [hpoint]; exact hfinal))
    cases written with
    | false => exact hstep
    | true => exact { hstep with store := hw.insert hr.plain hts }
  | completed hpoint hdone => exact .status hn hw _ _ (hgo (hr.exit rfl rfl rfl rfl))
  | progressed hpoint hdone =>
    refine .status hn hw _ _ (hgo ?_)
    split
    · exact hr.move (by rw [hpoint]; rfl) (by rw [hpoint]; exact hdone) rfl rfl
    · exact hr.move (by rw [hpoint]; rfl) (by rw [hpoint]; exact hdone) rfl rfl
  | delay hpoint => exact .local hn hw (hgo (hr.move (by rw [hpoint]; rfl) (by rw [hpoint]; rfl) rfl rfl))
  | cancel hcanceled hpoint => exact .local hn hw (hgo (hr.exit rfl rfl rfl rfl))
  | leave hpoint hstep =>
    exact .chunks hn hw hstep trivial (fun _ hi => nomatch hi) (fun _ hj => Function.update_of_ne hj _ _)
      (hset (hr.leaves (Process.step_extends hstep) (hn.window_keeps hrun hstep) rfl rfl rfl rfl))
  | finished hpoint => exact .schedule hn hw hn.queue _ _ fun _ heq => nomatch heq
  | returned hpoint => exact .schedule hn hw hn.queue _ _ (hgo (hr.exit rfl rfl rfl rfl))
  | stopped hpoint hcanceled => exact .local hn hw fun _ heq => nomatch heq
  | failed hpoint hcanceled => exact .status hn hw _ _ fun _ heq => nomatch heq

theorem NodeOk.laneStep (hn : NodeOk db w.history node) (hw : StateOk db w.history w.store) {a : LaneAct V}
    (ha : node.Assumed db w (.lane l a)) (hstep : node.laneStep w l a = some (w', node')) : StepOk db w node w' node' := by
  cases Node.steps_of_laneStep hstep with
  | run hrun hstep => exact hn.runStep hw ha hrun hstep
  | sleep | stopped => exact .local hn hw fun _ heq => by cases heq
  | @pop _ ref queue _ hqueue =>
    have hplain : ∀ ref' ∈ ref :: queue, ref'.Plain := hqueue ▸ hn.queue
    refine .schedule hn hw (fun ref' href => hplain ref' (by simp [href])) _ _ fun run heq => ?_
    cases heq
    exact runOk_new db _ node.process l (hplain ref (by simp))
  | wake => exact .schedule hn hw hn.queue _ _ fun _ heq => by cases heq

theorem NodeOk.streamStep (hn : NodeOk db w.history node) (hw : StateOk db w.history w.store) {a : StreamAct}
    (hstep : node.streamStep w a = some (w', node')) : StepOk db w node w' node' := by
  -- a step of the session is about no chunk in particular, so every lane keeps its own
  have hsession : ∀ {w₁ : Shared V} {node₁ : Node V}, node.onProcess w a.act = some (w₁, node₁) →
      StepOk db w node w₁ node₁ := by
    intro w₁ node₁ hprocess
    obtain ⟨h, p, hcall, rfl, rfl⟩ := Node.onProcess_eq_some hprocess
    have hchunk : (a.act : ProcessAct V).chunk? = none := by cases a <;> rfl
    refine .chunks (l := 0) hn hw hcall (by cases a <;> trivial) (fun i hi => ?_) (fun _ _ => rfl) fun run hrun => ?_
    · rw [hchunk] at hi
      cases hi
    · have hr := hn.runs 0 run hrun
      refine hr.keeps (Process.step_extends hcall) (hn.window_keeps hrun hcall) fun i hi => ?_
      exact Process.step_keeps hcall (hr.own i hi).1 fun hi' => by rw [hchunk] at hi'; cases hi'
  cases a with
  | up pos =>
    simp only [Node.streamStep, Option.map_eq_some_iff] at hstep
    obtain ⟨⟨w₁, node₁⟩, hprocess, hrest⟩ := hstep
    have hs := hsession hprocess
    cases hrest
    exact ⟨⟨hs.ok.sound, hs.ok.dashFree, hs.ok.chunkSize, hs.ok.state, hs.ok.queue, hs.ok.requests, hs.ok.runs⟩, hs.store,
      hs.grows, hs.marks, hs.instanceID⟩
  | down => exact hsession hstep
  | take lsn now => exact hsession hstep
  | delivered n => exact hsession hstep

theorem StateOk.markPending {store : StateMap} (hw : StateOk db h store) {tables : List TableRef}
    (hplain : ∀ ref ∈ tables, ref.Plain) :
    StateOk db h ((tables.map TableRef.string).foldl (fun store name => store.insert name {}) store) := by
  induction tables generalizing store with
  | nil => exact hw
  | cons ref tables ih =>
    exact ih (hw.insert (hplain ref (by simp)) (progress_pending db h ref)) fun ref' href => hplain ref' (by simp [href])

/-- The tables of a request are queued, and its progress only forgotten. -/
theorem grant_tables (kind : RequestKind) {tables : List TableRef} (hplain : ∀ ref ∈ tables, ref.Plain)
    (hqueue : ∀ ref ∈ c.queue, ref.Plain) (hstate : StateOk db h c.state) :
    (∀ ref ∈ (tables.foldl (Coordinator.grantTable kind) c).queue, ref.Plain) ∧
      StateOk db h (tables.foldl (Coordinator.grantTable kind) c).state := by
  induction tables generalizing c with
  | nil => exact ⟨hqueue, hstate⟩
  | cons ref tables ih =>
    obtain ⟨hs, hq⟩ := Coordinator.grantTable_tables kind c ref
    refine ih (fun ref' href => hplain ref' (by simp [href])) (fun ref' href => ?_) fun ref' hp ts hts =>
      hstate ref' hp ts (hs ref'.string ts hts)
    rcases hq ref' href with href | rfl
    · exact hqueue ref' href
    · exact hplain ref' (by simp)

/-- A request is made, or moves on. -/
theorem NodeOk.setRequest (hn : NodeOk db h node) {r : ℕ} {request : Option Request}
    (hplain : ∀ request', request = some request' → ∀ ref ∈ request'.tables, ref.Plain) : NodeOk db h (node.setRequest r request) where
  sound := hn.sound
  dashFree := hn.dashFree
  chunkSize := hn.chunkSize
  state := hn.state
  queue := hn.queue
  requests r' request' hr' := by
    by_cases hr : r' = r
    · subst hr
      simp only [Node.setRequest, Function.update_self] at hr'
      exact hplain request' hr'
    · exact hn.requests r' request' ((Function.update_of_ne hr _ _).symm.trans hr')
  runs := hn.runs

theorem NodeOk.step (hn : NodeOk db w.history node) (hw : StateOk db w.history w.store) {a : NodeAct V}
    (ha : node.Assumed db w a) (hrequest : a.Plain) (hstep : node.step w a = some (w', node')) : StepOk db w node w' node' := by
  cases Node.steps_of_step hstep with
  | stream => exact hn.streamStep hw hstep
  | run | sleep | pop | wake | stopped => exact hn.laneStep hw ha hstep
  | request =>
    refine .quiet (hn.setRequest fun request' hr ref href => ?_) hw rfl rfl
    cases hr
    exact hrequest ref (List.mem_of_mem_filter href)
  | @mark r written request hr =>
    have hplain := hn.requests r request hr
    have hmarked : NodeOk db w.history (node.setRequest r (some { request with marked := true })) :=
      hn.setRequest fun request' hr' => by
        cases hr'
        exact hplain
    cases written with
    | false => exact .quiet hmarked hw rfl rfl
    | true => exact .quiet hmarked (hw.markPending hplain) rfl rfl
  | @grant r request hr =>
    have hc := Coordinator.foldl_chunks (Coordinator.grantTable_chunks request.kind) request.tables node.coordinator
    obtain ⟨hqueue, hstate⟩ := grant_tables request.kind (hn.requests r request hr) hn.queue hn.state
    exact .quiet (NodeOk.setRequest (hn.keep (l := 0) hc hstate hqueue (fun _ _ => rfl) (hn.runs 0)) fun _ hr' => nomatch hr')
      hw rfl hc.instanceID
  | stop => exact .quiet ⟨hn.sound, hn.dashFree, hn.chunkSize, hn.state, hn.queue, hn.requests, hn.runs⟩ hw rfl rfl

end Nodes

/-! ## The world -/

section World

variable [ToString V] {N : Type} [DecidableEq N] {db : Database V} {w w' : World N V}

/-- What is assumed of a step: the ids of a node's chunks are its own, since its
instance id is new and holds no dash, and the database answers as a database
does. -/
def World.Assumed (db : Database V) (w : World N V) : WorldAct N V → Prop
  | .foreign content => ∀ payload, content = some payload → ∀ n node, w.nodes n = some node → ∀ ref i,
      payload.chunk ≠ chunkID node.coordinator.instanceID ref i
  | .boot _ _ instanceID _ _ => '-' ∉ instanceID.toList ∧
      (∀ n node, w.nodes n = some node → node.coordinator.instanceID ≠ instanceID) ∧
      ∀ (q : ℕ) payload, w.shared.history.wal[q]? = some (.mark (some payload)) → ∀ ref i, payload.chunk ≠ chunkID instanceID ref i
  | .node n a => ∀ node, w.nodes n = some node → node.Assumed db w.shared a
  | _ => True

def WorldAct.Plain : WorldAct N V → Prop
  | .node _ a => a.Plain
  | _ => True

structure WorldOk (db : Database V) (w : World N V) : Prop where
  nodes : ∀ n node, w.nodes n = some node → NodeOk db w.shared.history node
  instances : ∀ m n node node', m ≠ n → w.nodes m = some node → w.nodes n = some node' →
    node.coordinator.instanceID ≠ node'.coordinator.instanceID
  store : StateOk db w.shared.history w.shared.store

omit [DecidableEq N] in
theorem worldOk_start (db : Database V) : WorldOk db ({} : World N V) where
  nodes _ _ hn := nomatch hn
  instances _ _ _ _ _ hn := nomatch hn
  store _ _ _ hts := nomatch hts

omit [DecidableEq N] in
/-- What is written to the log by others than the nodes. -/
theorem WorldOk.append (hw : WorldOk db w) {items : List (Item V)}
    (hitems : ∀ payload, Item.mark (some payload) ∈ items → ∀ n node, w.nodes n = some node → ∀ ref i,
      payload.chunk ≠ chunkID node.coordinator.instanceID ref i) :
    WorldOk db (w.onHistory { w.shared.history with wal := w.shared.history.wal ++ items }) where
  nodes n node hn := by
    refine (hw.nodes n node hn).extends (.append w.shared.history items) fun q payload hq hitem ref i => ?_
    replace hitem : (w.shared.history.wal ++ items)[q]? = some (.mark (some payload)) := hitem
    rw [List.getElem?_append_right hq] at hitem
    exact hitems payload (List.mem_of_getElem? hitem) n node hn ref i
  instances := hw.instances
  store := hw.store.mono (.append w.shared.history items)

omit [ToString V] in
theorem startTables_tables (names : List String) (c : Coordinator V) (hqueue : ∀ ref ∈ c.queue, ref.Plain) :
    (names.foldl Coordinator.startTable c).state = c.state ∧
      ∀ ref ∈ (names.foldl Coordinator.startTable c).queue, ref.Plain := by
  induction names generalizing c with
  | nil => exact ⟨rfl, hqueue⟩
  | cons name names ih =>
    obtain ⟨hstate, hq⟩ := c.startTable_tables name
    obtain ⟨hstate', hq'⟩ := ih (c.startTable name) fun ref href => (hq ref href).elim (hqueue ref) id
    exact ⟨hstate'.trans hstate, hq'⟩

/-- A node that has just started. -/
theorem startNode_ok {h : History V} {store : StateMap} (hs : StateOk db h store) (cfg : Config) {instanceID : String}
    (hdash : '-' ∉ instanceID.toList)
    (hmarks : ∀ (q : ℕ) payload, h.wal[q]? = some (.mark (some payload)) → ∀ ref i, payload.chunk ≠ chunkID instanceID ref i)
    (names : List String) (loaded : Bool) : NodeOk db h (startNode cfg instanceID store names loaded) ∧
      (startNode cfg instanceID store names loaded : Node V).coordinator.instanceID = instanceID := by
  have hnew : NodeOk db h { process := newProcess cfg instanceID, lanes := fun _ => .stopped } := {
    sound := sound_newProcess db cfg hmarks
    dashFree := hdash
    chunkSize := by
      show 0 < if cfg.chunkSize = 0 then defaultChunkSize else cfg.chunkSize
      split
      · decide
      · exact Nat.pos_of_ne_zero ‹_›
    state := fun _ _ _ hts => nomatch hts
    queue := fun _ href => nomatch href
    requests := fun _ _ hr => nomatch hr
    runs := fun _ _ hrun => nomatch hrun }
  have hidle : ∀ (n l : ℕ) (run : Run), (if l < n then Lane.ready else .stopped) = .running run → False := fun n l run => by
    split <;> exact fun heq => nomatch heq
  cases loaded with
  | false =>
    exact ⟨⟨hnew.sound, hdash, hnew.chunkSize, hnew.state, hnew.queue, hnew.requests, fun l run hrun => (hidle _ l run hrun).elim⟩,
      rfl⟩
  | true =>
    have hloaded : (newCoordinator cfg instanceID : Coordinator V).SameChunks { newCoordinator cfg instanceID with state := store } :=
      ⟨rfl, rfl, rfl, rfl, rfl, rfl⟩
    have hc := hloaded.trans (Coordinator.foldl_chunks Coordinator.startTable_chunks names _)
    obtain ⟨hstate, hqueue⟩ := startTables_tables names { (newCoordinator cfg instanceID : Coordinator V) with state := store }
      fun _ href => nomatch href
    have hn := hnew.keep (l := 0) hc (by rw [hstate]; exact hs) hqueue (fun _ _ => rfl) fun _ hrun => nomatch hrun
    exact ⟨⟨hn.sound, hn.dashFree, hn.chunkSize, hn.state, hn.queue, hn.requests, fun l run hrun => (hidle _ l run hrun).elim⟩,
      hc.instanceID⟩

theorem WorldOk.setNode (hw : WorldOk db w) {n : N} {node : Option (Node V)}
    (hnode : ∀ node', node = some node' → NodeOk db w.shared.history node' ∧
      ∀ m node'', m ≠ n → w.nodes m = some node'' → node''.coordinator.instanceID ≠ node'.coordinator.instanceID) :
    WorldOk db (w.setNode n node) where
  nodes m node' hm := by
    by_cases hmn : m = n
    · subst hmn
      simp only [World.setNode, Function.update_self] at hm
      exact (hnode node' hm).1
    · simp only [World.setNode, Function.update_of_ne hmn] at hm
      exact hw.nodes m node' hm
  instances m m' a b hne ha hb := by
    by_cases hmn : m = n
    · subst hmn
      simp only [World.setNode, Function.update_self, Function.update_of_ne (Ne.symm hne)] at ha hb
      exact Ne.symm ((hnode a ha).2 m' b (Ne.symm hne) hb)
    · simp only [World.setNode, Function.update_of_ne hmn] at ha
      by_cases hmn' : m' = n
      · subst hmn'
        simp only [World.setNode, Function.update_self] at hb
        exact (hnode b hb).2 m a hmn ha
      · simp only [World.setNode, Function.update_of_ne hmn'] at hb
        exact hw.instances m m' a b hne ha hb
  store := hw.store

/-- A node takes a step: the others see a log that has grown by that node's
watermarks. -/
theorem WorldOk.node (hw : WorldOk db w) {n : N} {node node' : Node V} (hn : w.nodes n = some node) {shared : Shared V}
    (hstep : StepOk db w.shared node shared node') :
    WorldOk db { shared, nodes := Function.update w.nodes n (some node') } := by
  refine ⟨fun m node'' hm => ?_, fun m m' a b hne ha hb => ?_, hstep.store⟩
  · by_cases hmn : m = n
    · subst hmn
      simp only [Function.update_self, Option.some.injEq] at hm
      exact hm ▸ hstep.ok
    · simp only [Function.update_of_ne hmn] at hm
      have hok := hw.nodes m node'' hm
      refine hok.extends hstep.grows fun q payload hq hitem ref i hid => ?_
      obtain ⟨ref', i', hid'⟩ := hstep.marks q payload hq hitem
      exact hw.instances n m node node'' (Ne.symm hmn) hn hm
        (chunkID_instance_inj (hw.nodes n node hn).dashFree hok.dashFree (hid'.symm.trans hid))
  · -- the node kept its instance id
    have hold : ∀ m c, Function.update w.nodes n (some node') m = some c → ∃ c', w.nodes m = some c' ∧
        c.coordinator.instanceID = c'.coordinator.instanceID := by
      intro m c hc
      by_cases hmn : m = n
      · subst hmn
        simp only [Function.update_self, Option.some.injEq] at hc
        exact ⟨node, hn, hc ▸ hstep.instanceID⟩
      · simp only [Function.update_of_ne hmn] at hc
        exact ⟨c, hc, rfl⟩
    obtain ⟨a', ha', hia⟩ := hold m a ha
    obtain ⟨b', hb', hib⟩ := hold m' b hb
    rw [hia, hib]
    exact hw.instances m m' a' b' hne ha' hb'

theorem WorldOk.step (hw : WorldOk db w) {a : WorldAct N V} (ha : w.Assumed db a) (hplain : a.Plain)
    (hstep : w.step a = some w') : WorldOk db w' := by
  cases World.steps_of_step hstep with
  | commit => exact hw.append fun payload hmem => by simp at hmem
  | foreign => exact hw.append fun payload hmem => ha payload (by simpa [eq_comm] using hmem)
  | @boot n cfg instanceID names loaded =>
    obtain ⟨hdash, hinstance, hmarks⟩ := ha
    refine hw.setNode fun node' hnode => ?_
    cases hnode
    obtain ⟨hok, hid⟩ := startNode_ok hw.store cfg hdash hmarks names loaded
    refine ⟨hok, fun m node'' _ hm => ?_⟩
    rw [hid]
    exact hinstance m node'' hm
  | crash => exact hw.setNode fun node' hnode => by cases hnode
  | @node n _ node _ _ hn hnode => exact hw.node hn ((hw.nodes n node hn).step hw.store (ha node hn) hplain hnode)

theorem worldOk_of_reaches (hrun : Reaches World.step (fun w a => w.Assumed db a ∧ a.Plain) {} w) : WorldOk db w :=
  hrun.invariant (fun _ _ _ hw ha hstep => hw.step ha.1 ha.2 hstep) (worldOk_start db)

/-- **Completeness**: whatever the nodes did and wherever they crashed, a state
that is persisted for a table is pending, or was made by a run that has covered
the rows up to its cursor, and all rows if it is done. -/
theorem persisted_progress_covers (db : Database V)
    (hrun : Reaches World.step (fun w a => w.Assumed db a ∧ a.Plain) {} w) {ref : TableRef} (hplain : ref.Plain) {ts : TableState}
    (hts : w.shared.store.lookup ref.string = some ts) : ts.cursor = [] ∧ ts.done = false ∨
      ∃ b, ts.began = some b ∧ Covers db w.shared.history ref b ts.cursor ts.done := by
  have hprogress := (worldOk_of_reaches hrun).store ref hplain ts hts
  cases hb : ts.began with
  | none => exact .inl (hprogress.fresh hb)
  | some b => exact .inr ⟨b, rfl, hprogress.covers b hb⟩

end World

/-! ## A row updated before its chunk is selected -/

/-- Row 1 after the update. -/
def visitedUser : Row ℕ := { key := "1", values := [("id", some 1), ("visits", some 9)] }

theorem apply_visited : applyChange twoUsers.primaryKey visited twoUsers.rows = usersRows [visitedUser, secondUser] := by
  funext row
  obtain ⟨ref, key⟩ := row
  have href : eventRef visited = users := rfl
  have hnew : rowKey ["id"] visited.newData = some "1" := by decide
  simp only [applyChange, href, twoUsers, usersDatabase, hnew]
  by_cases hne : users = ref
  · subst hne
    by_cases hkey : key = "1"
    · subst hkey
      rfl
    · have hkey' : ¬ "1" = key := fun h => hkey h.symm
      simp [visited, userEvent, usersRows, rowKey, firstUser, visitedUser, hkey']
  · simp [hne, usersRows, Ne.symm hne]

/-- One lane, asked to backfill `users`, writes the low watermark of the first
chunk; then row 1 is updated. -/
def untilFirstSelect : List (WorldAct Unit ℕ) :=
  [WorldAct.node () (.request 0 .enqueueTable [users]), .node () (.mark 0 true), .node () (.grant 0)] ++
    ([LaneAct.pop, .primaryKey (.ok ["id"]), .load true, .loaded, .resume, .announce, .fill].map fun a =>
      WorldAct.node () (.lane 0 a)) ++
    [WorldAct.node () (.stream (.up 0)), .node () (.lane 0 .waitForStream), .node () (.lane 0 .register),
      .node () (.lane 0 (.emit true none)), .commit [visited]]

def firstSelect : WorldAct Unit ℕ :=
  .node () (.lane 0 (.select (.ok (3, { rows := [visitedUser, secondUser], lastCursor := ["2"] }))))

/-- The chunk is delivered, and the table saved as done. -/
def afterFirstSelect : List (WorldAct Unit ℕ) :=
  ([LaneAct.publish, .emit true none, .started, .fill].map fun a => WorldAct.node () (.lane 0 a)) ++
    List.replicate 4 (WorldAct.node () (.stream (.take "0/30" 0))) ++ [WorldAct.node () (.stream (.delivered 1))] ++
    ([LaneAct.done, .record, .save true].map fun a => WorldAct.node () (.lane 0 a))

def bootOne : WorldAct Unit ℕ := .boot () { slotName := "gtc", chunkSize := 10, lanes := 1 } "7f3a" [] true

/-- What is assumed of the steps below. -/
def OnUsers (w : World Unit ℕ) (a : WorldAct Unit ℕ) : Prop := w.Assumed twoUsers a ∧ a.Plain

theorem bootOne_assumed : OnUsers {} bootOne := by
  refine ⟨⟨by decide, fun _ _ hn => ?_, fun _ _ hq => ?_⟩, trivial⟩
  · cases hn
  · cases hq

theorem users_plain : users.Plain := by
  unfold TableRef.Plain
  decide

theorem untilFirstSelect_assumed : ∀ a ∈ untilFirstSelect, ∀ w, OnUsers w a := by
  simp only [untilFirstSelect, List.map_cons, List.map_nil, List.cons_append, List.nil_append, List.mem_cons,
    List.not_mem_nil, or_false]
  rintro a (rfl | rfl | rfl | rfl | rfl | rfl | rfl | rfl | rfl | rfl | rfl | rfl | rfl | rfl | rfl) w
  case inl =>
    refine ⟨fun _ _ => trivial, fun ref href => ?_⟩
    rw [List.mem_singleton.mp href]
    exact users_plain
  all_goals first | exact ⟨trivial, trivial⟩ | exact ⟨fun _ _ => trivial, trivial⟩ | exact ⟨fun _ _ _ _ => rfl, trivial⟩

theorem afterFirstSelect_assumed : ∀ a ∈ afterFirstSelect, ∀ w, OnUsers w a := by
  intro a ha w
  simp only [afterFirstSelect, List.map_cons, List.map_nil, List.mem_append, List.mem_replicate, List.mem_cons,
    List.not_mem_nil, or_false] at ha
  rcases ha with (((rfl | rfl | rfl | rfl) | ⟨-, rfl⟩) | rfl) | rfl | rfl | rfl
  all_goals exact ⟨fun _ _ => trivial, trivial⟩

/-- The chunk that lane 0 of a node is starting: its low watermark, table, cursor
and size. -/
def startingChunk {N : Type} (n : N) (w : World N ℕ) : Option (Option ℕ × TableRef × List String × ℕ) := do
  let node ← w.nodes n
  match node.lanes 0 with
  | .running run =>
    match run.point with
    | .starting i => some ((node.process.calls i).low, (node.process.chunk i).table, (node.process.calls i).cursor,
        node.process.coordinator.cfg.chunkSize)
    | _ => none
  | _ => none

theorem select_assumed {N : Type} {db : Database ℕ} {n : N} {w : World N ℕ} (low : ℕ) (ref : TableRef) (cursor : List String)
    (size : ℕ) {snapshot : ℕ} {chunk : Chunk ℕ} (hchunk : startingChunk n w = some (some low, ref, cursor, size)) (hlow : low < snapshot)
    (hboundary : Database.Boundary w.shared.history.wal snapshot)
    (hrows : db.FirstRows (db.source (w.shared.history.wal.take snapshot)) ref cursor size chunk) :
    w.Assumed db (.node n (.lane 0 (.select (.ok (snapshot, chunk))))) := by
  intro node hn run i hrun hpoint
  simp only [startingChunk, hn, hrun, hpoint, Option.bind_eq_bind, Option.bind_some, Option.some.injEq, Prod.mk.injEq] at hchunk
  obtain ⟨hlow', htable, hcursor, hsize⟩ := hchunk
  refine ⟨low, hlow', hlow, hboundary, ?_⟩
  rw [htable, hcursor, hsize]
  exact hrows

theorem firstSelect_assumed {w : World Unit ℕ} (hw : runSteps World.step {} (bootOne :: untilFirstSelect) = some w) :
    OnUsers w firstSelect := by
  have hwal : w.shared.history.wal = [.mark (some ⟨"gtc", "7f3a-public.users-1", "low"⟩), .change visited, .commit] :=
    runSteps_observe (f := fun w => w.shared.history.wal) hw (by decide +kernel)
  refine ⟨select_assumed 0 users [] 10 (runSteps_observe hw (by decide +kernel)) (by decide)
    ⟨by rw [hwal]; decide, by simp [hwal]⟩ ?_, trivial⟩
  have hsource : twoUsers.source (w.shared.history.wal.take 3) = usersRows [visitedUser, secondUser] := by
    rw [hwal]
    exact apply_visited
  rw [hsource]
  exact usersRows_select (fun _ => rfl) (fun _ _ => .rfl) (by decide) (by decide) (by decide)

theorem updated_run : ∃ w : World Unit ℕ, Reaches World.step OnUsers {} w ∧
    w.shared.store.lookup users.string = some { done := true, rowsCopied := 1, began := some ⟨0, 3⟩ } ∧
    changes (w.shared.history.wal.take 3) = [visited] ∧ changes (w.shared.history.wal.drop 3) = [] ∧
    w.shared.history.reports.map (·.read) = [[readEvent "0/30" 0 "7f3a-public.users-1" users secondUser]] := by
  obtain ⟨w, hw, hseen⟩ : ∃ w, runSteps World.step {} ((bootOne :: untilFirstSelect) ++ firstSelect :: afterFirstSelect) = some w ∧
      (w.shared.store.lookup users.string, changes (w.shared.history.wal.take 3), changes (w.shared.history.wal.drop 3)) =
      (some { done := true, rowsCopied := 1, began := some ⟨0, 3⟩ }, [visited], []) :=
    Option.map_eq_some_iff.mp (by decide +kernel)
  simp only [Prod.mk.injEq] at hseen
  refine ⟨w, ?_, hseen.1, hseen.2.1, hseen.2.2,
    runSteps_observe (f := fun w => w.shared.history.reports.map (·.read)) hw (by decide +kernel)⟩
  obtain ⟨w₁, w₂, h₁, h₂, h₃⟩ := runSteps_append_eq_some hw
  obtain ⟨v, hboot, huntil⟩ := runSteps_cons_eq_some h₁
  exact (((Reaches.refl.tail bootOne_assumed hboot).trans (reaches_of_runSteps_ok untilFirstSelect_assumed huntil)).tail
    (firstSelect_assumed h₁) h₂).trans (reaches_of_runSteps_ok afterFirstSelect_assumed h₃)

/-- The state says that row 1 was superseded while the first chunk was selected,
and row 2 delivered. -/
theorem persisted_progress_covers_users : ∃ w : World Unit ℕ, Reaches World.step OnUsers {} w ∧
    Covers twoUsers w.shared.history users ⟨0, 3⟩ [] true := by
  obtain ⟨w, hrun, hts, -⟩ := updated_run
  refine ⟨w, hrun, ?_⟩
  rcases persisted_progress_covers twoUsers hrun users_plain hts with ⟨-, hdone⟩ | ⟨b, hb, hcovers⟩
  · cases hdone
  · cases hb
    exact hcovers

/-- Row 1 has not changed since the first select and the table is done, but no
READ of the row was delivered. -/
theorem superseded_row_not_read : ∃ (w : World Unit ℕ) (ts : TableState) (b : Began),
    Reaches World.step OnUsers {} w ∧ w.shared.store.lookup users.string = some ts ∧ ts.done = true ∧
    ts.began = some b ∧ twoUsers.Unchanged w.shared.history.wal b.snapshot users "1" visitedUser.values ∧
    ¬ Delivered w.shared.history users 0 visitedUser := by
  obtain ⟨w, hrun, hts, hbefore, hafter, hreports⟩ := updated_run
  refine ⟨w, _, _, hrun, hts, rfl, rfl, ⟨?_, ?_⟩, ?_⟩
  · show (journal twoUsers.primaryKey).replay twoUsers.rows (changes (w.shared.history.wal.take 3)) (users, "1") = _
    rw [hbefore]
    rfl
  · intro event hevent
    rw [hafter] at hevent
    cases hevent
  · rintro ⟨r, hr, -, -, event, hevent, lsn, now, id, hread⟩
    have hmem := List.mem_map_of_mem (f := (·.read)) hr
    rw [hreports] at hmem
    rw [List.mem_singleton.mp hmem] at hevent
    obtain rfl := List.mem_singleton.mp hevent
    exact absurd (congrArg CDCEvent.newData hread) (by simp [readEvent, secondUser, visitedUser])

end Gtc.Backfill
