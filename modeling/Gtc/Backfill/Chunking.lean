/-
Keyset chunking: the chunks of a run partition the table.

`Going` is where a run is in its plan: how many chunks it has started, and how
many it has taken out of its window. Every step of the run keeps it, and so does
everything else the nodes do. Each step of the run lowers `rank`, so the run
ends, and a run that has not ended can go on, or waits for the stream or for the
head of its window. `Watch` keeps what the run selected and what it saved.
-/
import Gtc.Backfill.Plan

namespace Gtc.Backfill

open Lib

variable {V : Type} [ToString V]

/-! ## Where a run is -/

omit [ToString V] in
/-- What the next step of `startChunk` needs is there. -/
structure Call.Ready (call : Call V) : Prop where
  select : call.stage = .select → call.low ≠ none
  publish : call.stage = .publish → call.selection ≠ none

namespace Plan

/-- What a run has done when it is at a point: the chunks it has started and
those it has taken, the selects it has made and the states it has saved. -/
def Here (plan : Plan V) (db : Database V) (p : Process V) (l started taken selects saves : ℕ) : RunPoint → Prop
  | .announce | .fill | .delay => selects = started ∧ saves = taken ∧ taken < plan.count
  | .waitForStream | .register =>
    selects = started ∧ saves = taken ∧ started < plan.count ∧ started < taken + pipelineDepth
  | .starting i => selects = started + (p.calls i).selection.isSome.toNat ∧ saves = taken ∧ started < plan.count ∧
      started < taken + pipelineDepth ∧ Mine plan db p l i started ∧ (p.calls i).Ready
  | .await => selects = started ∧ saves = taken ∧ taken < started
  | .record ts | .save ts => selects = started ∧ saves + 1 = taken ∧ { ts with began := none } = plan.saved db saves
  | .saved ts => selects = started ∧ saves = taken ∧ (ts.done = true ↔ taken = plan.count)
  | .leave err | .returned err => selects = started ∧ saves = taken ∧ taken = plan.count ∧ err = none
  | _ => False

structure Going (plan : Plan V) (db : Database V) (p : Process V) (l : ℕ) (run : Run) (started taken selects saves : ℕ) :
    Prop where
  size : p.coordinator.cfg.chunkSize = plan.size
  ref : run.ref = plan.ref
  length : taken + run.window.length = started
  le : started ≤ plan.count
  depth : run.window.length ≤ pipelineDepth
  window : ∀ j i, run.window[j]? = some i → Mine plan db p l i (taken + j) ∧ (p.calls i).stage = .returned
  exhausted : run.exhausted = decide (started = plan.count)
  next : started < plan.count → run.next = plan.cursorAt db started
  copied : run.copied = plan.copied + min plan.rows.length (taken * plan.size)
  here : plan.Here db p l started taken selects saves run.point

/-- The steps to the next chunk that is started or taken. -/
def weight (p : Process V) : RunPoint → ℕ
  | .record _ => 11
  | .save _ => 10
  | .saved _ => 9
  | .announce | .delay => 8
  | .fill => 7
  | .waitForStream | .await => 6
  | .register => 5
  | .starting i =>
    match (p.calls i).stage with
    | .low => 4
    | .select => 3
    | .publish => 2
    | .high => 1
    | _ => 0
  | .leave _ => 1
  | _ => 0

def rank (plan : Plan V) (p : Process V) (started taken : ℕ) (point : RunPoint) : ℕ :=
  8 * (plan.count - started) + 6 * (plan.count - taken) + weight p point

variable {plan : Plan V} {db : Database V} {p p' : Process V} {l : ℕ} {run : Run} {started taken selects saves : ℕ}

/-- A run whose window is kept goes on. -/
theorem Going.move (hg : plan.Going db p l run started taken selects saves) (hsize : p'.coordinator.cfg.chunkSize = plan.size)
    (hwindow : ∀ j i, run.window[j]? = some i → Mine plan db p' l i (taken + j) ∧ (p'.calls i).stage = .returned)
    {point : RunPoint} (began : Option Began) {selects' saves' : ℕ}
    (hhere : plan.Here db p' l started taken selects' saves' point) :
    plan.Going db p' l { run with point, began } started taken selects' saves' where
  size := hsize
  ref := hg.ref
  length := hg.length
  le := hg.le
  depth := hg.depth
  window := hwindow
  exhausted := hg.exhausted
  next := hg.next
  copied := hg.copied
  here := hhere

end Plan

/-! ## Steps of the run -/

/-- What the select of a step answered. -/
def LaneAct.selection? : LaneAct V → Option (Chunk V)
  | .select (.ok (_, chunk)) => some chunk
  | _ => none

/-- What a step hands to `SaveState`, and whether it was written. -/
def LaneAct.save? (point : RunPoint) : LaneAct V → Option (TableState × Bool)
  | .save written =>
    match point with
    | .save ts => some (ts, written)
    | _ => none
  | _ => none

/-- No database call fails, the stream does not restart under the run, and the
run is not cancelled. It is followed until it has returned. -/
def LaneAct.Calm : LaneAct V → Prop
  | .emit _ (some _) | .select (.error _) | .restart | .cancel | .returned => False
  | _ => True

section Steps

variable {plan : Plan V} {db : Database V} {w w' : Shared V} {node node' : Node V} {l : ℕ} {run : Run}
  {started taken selects saves : ℕ}

variable {about : ℕ → Prop} {h : History V} {p : Process V}

theorem Mine.onChunks {i j : ℕ} (hm : Mine plan db node.process l i j) (hs : Sound db w.history node.process)
    (hf : plan.Fits db w.history.wal) (hon : node.OnChunks db w about w' node')
    (hlive : (node'.process.calls i).stage ≠ .abandon ∧ (node'.process.calls i).stage ≠ .failed) :
    Mine plan db node'.process l i j := by
  rcases hon with ⟨-, hsame⟩ | ⟨a, hstep, -, -⟩
  · have hcall := congrFun hsame.calls i
    have hchunk : node'.process.chunk i = node.process.chunk i := congrFun hsame.chunks.chunks i
    refine ⟨hm.registered.evolves hsame.chunks.evolves, ?_, ?_, ?_, ?_, hlive, ?_⟩
    · rw [hcall]
      exact hm.lane
    · rw [hchunk]
      exact hm.table
    · rw [hcall]
      exact hm.cursor
    · rw [hcall]
      exact hm.low
    · rw [hcall, hchunk]
      exact hm.counted
  · exact hm.step hs hf hstep hlive

theorem Node.OnChunks.cfg (hon : node.OnChunks db w about w' node') :
    node'.process.coordinator.cfg = node.process.coordinator.cfg := by
  rcases hon with ⟨-, hsame⟩ | ⟨a, hstep, -, -⟩
  · exact hsame.chunks.cfg
  · exact (Process.step_tables hstep).cfg

/-- The window of the run is kept by every step. -/
theorem Plan.Going.window_kept (hg : plan.Going db node.process l run started taken selects saves)
    (hs : Sound db w.history node.process) (hf : plan.Fits db w.history.wal)
    (hon : node.OnChunks db w about w' node') : ∀ j i, run.window[j]? = some i →
      Mine plan db node'.process l i (taken + j) ∧ (node'.process.calls i).stage = .returned := by
  intro j i hi
  obtain ⟨hm, hstage⟩ := hg.window j i hi
  obtain ⟨-, hstage'⟩ := (hon.keeps hm.registered fun _ => hstage).returned hstage
  exact ⟨hm.onChunks hs hf hon (by simp [hstage']), hstage'⟩

/-- Where the run is after one of its steps. -/
structure Plan.Goes (plan : Plan V) (db : Database V) (node' : Node V) (l : ℕ) (a : LaneAct V) (point : RunPoint)
    (selects saves rank : ℕ) : Prop where
  going : ∃ run started taken, node'.lanes l = .running run ∧ plan.rank node'.process started taken run.point < rank ∧
    plan.Going db node'.process l run started taken (selects + a.selection?.toList.length) (saves + (a.save? point).toList.length)
  selected : ∀ chunk, a.selection? = some chunk → chunk = plan.chunk db selects
  saved : ∀ s, a.save? point = some s → { s.1 with began := none } = plan.saved db saves

/-- The chunk the run is starting, after one more step of `startChunk`. -/
theorem Plan.Going.onChunk (hg : plan.Going db node.process l run started taken selects saves)
    (hs : Sound db w.history node.process) (hf : plan.Fits db w.history.wal) {i : ℕ} (hpoint : run.point = .starting i)
    (hon : node.OnChunks db w about w' node') (began : Option Began) {selects' : ℕ}
    (hlive : (node'.process.calls i).stage ≠ .abandon ∧ (node'.process.calls i).stage ≠ .failed)
    (hready : (node'.process.calls i).Ready)
    (hselects : selects' = started + (node'.process.calls i).selection.isSome.toNat) :
    plan.Going db node'.process l { run with began } started taken selects' saves := by
  have hhere := hg.here
  simp only [hpoint, Plan.Here] at hhere
  obtain ⟨-, hsaves, hstarted, hdepth, hmine, -⟩ := hhere
  refine hg.move (hon.cfg ▸ hg.size) (hg.window_kept hs hf hon) began ?_
  rw [hpoint]
  exact ⟨hselects, hsaves, hstarted, hdepth, hmine.onChunks hs hf hon hlive, hready⟩

/-- A step that selects and saves nothing. -/
theorem Plan.Goes.quiet {a : LaneAct V} {point : RunPoint} {rank : ℕ} {run' : Run} {started' taken' : ℕ}
    (hselection : a.selection? = none) (hsave : a.save? point = none) (hlane : node'.lanes l = .running run')
    (hrank : plan.rank node'.process started' taken' run'.point < rank)
    (hgoing : plan.Going db node'.process l run' started' taken' selects saves) :
    plan.Goes db node' l a point selects saves rank where
  going := by
    rw [hselection, hsave]
    exact ⟨run', started', taken', hlane, hrank, hgoing⟩
  selected chunk hchunk := by
    rw [hselection] at hchunk
    cases hchunk
  saved s hs := by
    rw [hsave] at hs
    cases hs

theorem Plan.Going.fill (hg : plan.Going db node.process l run started taken selects saves) (hpoint : run.point = .fill) :
    plan.Going db node.process l run.fill started taken selects saves := by
  have hhere := hg.here
  simp only [hpoint, Plan.Here] at hhere
  obtain ⟨hselects, hsaves, htaken⟩ := hhere
  have hlength := hg.length
  have hle := hg.le
  have hexhausted := hg.exhausted
  unfold Run.fill
  split
  · rename_i hmore
    simp only [hexhausted, decide_eq_true_eq] at hmore
    exact hg.move hg.size hg.window run.began ⟨hselects, hsaves, by omega, by omega⟩
  · rename_i hmore
    simp only [hexhausted, decide_eq_true_eq, pipelineDepth] at hmore
    exact hg.move hg.size hg.window run.began ⟨hselects, hsaves, by omega⟩

theorem Plan.Going.start (hg : plan.Going db node.process l run started taken selects saves)
    (hs : Sound db w.history node.process) (hf : plan.Fits db w.history.wal) {i : ℕ} (hpoint : run.point = .starting i)
    (hstage : (node.process.calls i).stage = .returned) :
    started < plan.count ∧ plan.Going db node.process l (run.started node.process.coordinator.cfg.chunkSize i (node.process.chunk i))
      (started + 1) taken selects saves := by
  have hhere := hg.here
  simp only [hpoint, Plan.Here] at hhere
  obtain ⟨hselects, hsaves, hstarted, hdepth, hmine, -⟩ := hhere
  obtain ⟨hsel, hcount, hlast⟩ := hmine.published hs hf hstarted hg.size (.inr hstage)
  have hlength := hg.length
  rw [hsel] at hselects
  refine ⟨hstarted, hg.size, hg.ref, ?_, hstarted, ?_, fun j k hk => ?_, ?_, fun _ => hlast, hg.copied, hselects, hsaves, by omega⟩
  · simp only [Run.started, List.length_append, List.length_singleton]
    omega
  · simp only [Run.started, List.length_append, List.length_singleton]
    omega
  · simp only [Run.started] at hk
    by_cases hj : j < run.window.length
    · rw [List.getElem?_append_left hj] at hk
      exact hg.window j k hk
    · rw [List.getElem?_append_right (Nat.not_lt.mp hj), List.getElem?_singleton] at hk
      split at hk
      · cases hk
        rw [show taken + j = started by omega]
        exact ⟨hmine, hstage⟩
      · cases hk
  · have hshort := Plan.chunk_short_iff db hf.size hstarted
    simp only [Run.started, hg.exhausted, hg.size, hcount, hshort]
    simp [Nat.ne_of_lt hstarted]

/-- The head of the window is taken. -/
theorem Plan.Going.delivered (hg : plan.Going db node.process l run started taken selects saves)
    (hs : Sound db w.history node.process) (hf : plan.Fits db w.history.wal) (hpoint : run.point = .await) {head : ℕ}
    {window : List ℕ} (hwindow : run.window = head :: window) (hdone : (node.process.chunk head).done = true) :
    plan.Going db node.process l (run.delivered node.process.coordinator.cfg.chunkSize (node.process.chunk head) window)
      started (taken + 1) selects saves := by
  have hhere := hg.here
  simp only [hpoint, Plan.Here] at hhere
  obtain ⟨hselects, hsaves, htaken⟩ := hhere
  obtain ⟨hmine, hstage⟩ : Mine plan db node.process l head taken ∧ (node.process.calls head).stage = .returned :=
    hg.window 0 head (by rw [hwindow]; rfl)
  have hlt : taken < plan.count := Nat.lt_of_lt_of_le htaken hg.le
  have hdelivered := hmine.delivered hs hf hlt hg.size hstage hdone
  obtain ⟨-, hcount, hlast⟩ := hmine.published hs hf hlt hg.size (.inr hstage)
  have hcopied : run.copied + (node.process.chunk head).delivered =
      plan.copied + min plan.rows.length ((taken + 1) * plan.size) := by
    rw [hg.copied, hdelivered, Nat.add_assoc]
    exact congrArg (plan.copied + ·) (Plan.copied_chunk hlt)
  have hlength := hg.length
  have hdepth := hg.depth
  rw [hwindow, List.length_cons] at hlength hdepth
  have htake : ∀ {cursor : List String} {point : RunPoint}, plan.Here db node.process l started (taken + 1) selects saves point →
      plan.Going db node.process l
        { run with window, cursor, point, copied := run.copied + (node.process.chunk head).delivered } started (taken + 1)
        selects saves := fun hhere => {
    size := hg.size
    ref := hg.ref
    length := by dsimp only; omega
    le := hg.le
    depth := Nat.le_of_succ_le hdepth
    window := fun j i hi => by
      rw [Nat.add_assoc, Nat.add_comm 1 j]
      exact hg.window (j + 1) i (by rw [hwindow]; exact hi)
    exhausted := hg.exhausted
    next := hg.next
    copied := hcopied
    here := hhere }
  have hshort := Plan.chunk_short_iff db hf.size hlt
  rw [← hcount, ← hg.size] at hshort
  unfold Run.delivered
  split
  · rename_i hfinal
    refine htake ⟨hselects, by omega, ?_⟩
    rw [hsaves, Plan.saved_last hf.size (hshort.mp hfinal), hcopied]
  · rename_i hfull
    have hmore : taken + 1 < plan.count := Nat.lt_of_le_of_ne hlt fun heq => hfull (hshort.mpr heq)
    refine htake ⟨hselects, by omega, ?_⟩
    rw [hsaves, Plan.saved_full hmore, hcopied, hlast]

/-! ### `startChunk` -/

theorem Plan.Going.register (hg : plan.Going db node.process l run started taken selects saves)
    (hs : Sound db w.history node.process) (hf : plan.Fits db w.history.wal) (hpoint : run.point = .register)
    (hon : node.OnChunks db w about { w with history := h }
      (Node.setRun { node with process := p } l { run with point := .starting p.coordinator.chunkSeq }))
    (hstep : node.process.step w.history (.register l run.ref run.pkCols run.next) = some (h, p)) :
    plan.Goes db (Node.setRun { node with process := p } l { run with point := .starting p.coordinator.chunkSeq }) l .register
      run.point selects saves (plan.rank node.process started taken run.point) := by
  have hhere := hg.here
  simp only [hpoint, Plan.Here] at hhere
  obtain ⟨hselects, hsaves, hstarted, hdepth⟩ := hhere
  cases Process.steps_of_step hstep
  have hmine : Mine plan db (node.process.register l run.ref run.pkCols run.next) l (node.process.coordinator.chunkSeq + 1)
      started := by
    rw [hg.ref]
    exact mine_register (hg.next hstarted).symm run.pkCols
  have hcall : (node.process.register l run.ref run.pkCols run.next).calls (node.process.coordinator.chunkSeq + 1) =
      { lane := l, cursor := run.next } := Function.update_self ..
  refine .quiet rfl rfl (Node.setRun_lane ..) ?_
    (hg.move (hon.cfg ▸ hg.size) (hg.window_kept hs hf hon) run.began ⟨?_, hsaves, hstarted, hdepth, hmine, ?_⟩)
  · show plan.rank (node.process.register l run.ref run.pkCols run.next) started taken
      (.starting (node.process.coordinator.chunkSeq + 1)) < _
    simp [Plan.rank, Plan.weight, hpoint, hcall]
  · show selects = started + ((node.process.register l run.ref run.pkCols run.next).calls
      (node.process.coordinator.chunkSeq + 1)).selection.isSome.toNat
    rw [hcall]
    exact hselects
  · show ((node.process.register l run.ref run.pkCols run.next).calls (node.process.coordinator.chunkSeq + 1)).Ready
    rw [hcall]
    exact ⟨(fun hstage => by cases hstage), (fun hstage => by cases hstage)⟩

theorem Plan.Going.emitted (hg : plan.Going db node.process l run started taken selects saves)
    (hs : Sound db w.history node.process) (hf : plan.Fits db w.history.wal) (hrun : node.lanes l = .running run) {i : ℕ}
    (hpoint : run.point = .starting i) {a : ProcessAct V} {written : Bool}
    (hon : node.OnChunks db w about { w with history := h } { node with process := p })
    (hemit : a = .emitLow i written true ∨ a = .emitHigh i written true) (hstep : node.process.step w.history a = some (h, p)) :
    plan.Goes db { node with process := p } l (.emit written none) run.point selects saves
      (plan.rank node.process started taken run.point) := by
  have hhere := hg.here
  simp only [hpoint, Plan.Here] at hhere
  obtain ⟨hselects, -⟩ := hhere
  rcases hemit with rfl | rfl
  · simp only [Process.step, Option.ite_none_right_eq_some] at hstep
    obtain ⟨⟨hstage, hwritten⟩, heq⟩ := hstep
    cases heq
    have hcall : (node.process.emitLow w.history i written true).calls i =
        { node.process.calls i with low := Process.writtenAt w.history written, stage := .select } := Function.update_self ..
    refine .quiet rfl rfl hrun ?_ (hg.onChunk hs hf hpoint hon run.began ?_ ?_ ?_)
    · simp [Plan.rank, Plan.weight, hpoint, hcall, hstage]
    · simp [hcall]
    · rw [hcall, hwritten trivial]
      exact ⟨(fun _ hlow => by cases hlow), (fun hstage' => by cases hstage')⟩
    · rw [hcall]
      exact hselects
  · cases Process.steps_of_step hstep with
    | emitHigh hstage =>
      have hcall : (node.process.emitHigh w.history i written true).calls i =
          { node.process.calls i with high := Process.writtenAt w.history written, stage := .returned } := Function.update_self ..
      refine .quiet rfl rfl hrun ?_ (hg.onChunk hs hf hpoint hon run.began ?_ ?_ ?_)
      · simp [Plan.rank, Plan.weight, hpoint, hcall, hstage]
      · simp [hcall]
      · rw [hcall]
        exact ⟨(fun hstage' => by cases hstage'), (fun hstage' => by cases hstage')⟩
      · rw [hcall]
        exact hselects

theorem Plan.Going.select (hg : plan.Going db node.process l run started taken selects saves)
    (hs : Sound db w.history node.process) (hf : plan.Fits db w.history.wal) {i : ℕ} (hpoint : run.point = .starting i)
    {snapshot : ℕ} {chunk : Chunk V}
    (hon : node.OnChunks db w about w' node') (ha : node.process.Assumed db w.history (.select i (some (snapshot, chunk))))
    (hstep : node.process.step w.history (.select i (some (snapshot, chunk))) = some (h, p)) {began : Option Began}
    (hnote : (Node.setRun { node with process := p } l { run with began }).noteSelect { w with history := h } run.ref run.next =
      (w', node')) :
    plan.Goes db node' l (.select (.ok (snapshot, chunk))) run.point selects saves
      (plan.rank node.process started taken run.point) := by
  obtain ⟨low, hlow, hlt, -, hrows⟩ := ha
  have hhere := hg.here
  simp only [hpoint, Plan.Here] at hhere
  obtain ⟨hselects, hsaves, hstarted, hdepth, hmine, -⟩ := hhere
  obtain ⟨_, selected, -, -, hnode'⟩ := Node.noteSelect_eq hnote
  cases Process.steps_of_step hstep with
  | select hstage =>
    rw [(hs.call i hmine.registered).unselected (.inr hstage)] at hselects
    have hchunk : chunk = plan.chunk db started := by
      rw [hmine.table, hmine.cursor, hg.size] at hrows
      exact hf.select (Nat.le_trans (hmine.low low hlow) (Nat.le_of_lt hlt)) hstarted hrows
    have hcall : node'.process.calls i =
        { node.process.calls i with selection := some (snapshot, chunk), stage := .publish } := by
      rw [hnode']
      exact Function.update_self ..
    have hlane : node'.lanes l = .running { run with began } := by
      rw [hnode']
      exact Node.setRun_lane ..
    refine ⟨⟨_, started, taken, hlane, ?_, hg.onChunk hs hf hpoint hon began ?_ ?_ ?_⟩, fun chunk' heq => ?_,
      fun s hs => by cases hs⟩
    · simp [Plan.rank, Plan.weight, hpoint, hcall, hstage]
    · simp [hcall]
    · rw [hcall]
      exact ⟨(fun hstage' => by cases hstage'), (fun _ hsel => by cases hsel)⟩
    · rw [hcall, hselects]
      rfl
    · cases heq
      rw [hchunk, hselects]
      rfl

theorem Plan.Going.publish (hg : plan.Going db node.process l run started taken selects saves)
    (hs : Sound db w.history node.process) (hf : plan.Fits db w.history.wal) (hrun : node.lanes l = .running run) {i : ℕ}
    (hpoint : run.point = .starting i)
    (hon : node.OnChunks db w about { w with history := h } { node with process := p })
    (hstep : node.process.step w.history (.publish i) = some (h, p)) :
    plan.Goes db { node with process := p } l .publish run.point selects saves
      (plan.rank node.process started taken run.point) := by
  have hhere := hg.here
  simp only [hpoint, Plan.Here] at hhere
  obtain ⟨hselects, -⟩ := hhere
  cases Process.steps_of_step hstep with
  | @publish _ s selected hstage hsel =>
    have hcall : (node.process.publish i selected).calls i =
        { node.process.calls i with stage := if selected.rows.length = 0 then .returned else .high } := Function.update_self ..
    refine .quiet rfl rfl hrun ?_ (hg.onChunk hs hf hpoint hon run.began ?_ ?_ ?_)
    · by_cases hempty : selected.rows.length = 0 <;> simp [Plan.rank, Plan.weight, hpoint, hcall, hstage, hempty]
    · rw [hcall]
      dsimp only
      split <;> simp
    · rw [hcall]
      dsimp only
      split <;> exact ⟨(fun hstage' => by cases hstage'), (fun hstage' => by cases hstage')⟩
    · rw [hcall]
      exact hselects

/-! ### Every step -/

/-- **A step of the run** keeps it on its way. -/
theorem Plan.Going.runStep (hg : plan.Going db node.process l run started taken selects saves)
    (hn : Orderly db w.history node) (hf : plan.Fits db w.history.wal) (hrun : node.lanes l = .running run) {a : LaneAct V}
    (ha : node.Assumed db w (.lane l a)) (hcalm : a.Calm) (hstep : Node.RunSteps w node l run a w' node') :
    plan.Goes db node' l a run.point selects saves (plan.rank node.process started taken run.point) := by
  have hs := hn.sound
  have hon := hstep.process hrun (hn.runs l run hrun).pkCols ha
  have hwindow := hg.window_kept hs hf hon
  have hsize : node'.process.coordinator.cfg.chunkSize = plan.size := hon.cfg ▸ hg.size
  have hlength := hg.length
  have hle := hg.le
  have hhere := hg.here
  cases hstep with
  | announce hpoint =>
    simp only [hpoint, Plan.Here] at hhere
    exact .quiet rfl rfl (Node.setRun_lane ..) (by simp [Plan.rank, Plan.weight, hpoint])
      (hg.move hsize hwindow run.began hhere)
  | fill hpoint =>
    refine .quiet rfl rfl (Node.setRun_lane ..) ?_ (hg.fill hpoint)
    simp only [Plan.rank, hpoint, Run.fill]
    split <;> simp [Plan.weight]
  | waitForStream hpoint hup =>
    simp only [hpoint, Plan.Here] at hhere
    exact .quiet rfl rfl (Node.setRun_lane ..) (by simp [Plan.rank, Plan.weight, hpoint])
      (hg.move hsize hwindow run.began hhere)
  | delay hpoint =>
    simp only [hpoint, Plan.Here] at hhere
    exact .quiet rfl rfl (Node.setRun_lane ..) (by simp [Plan.rank, Plan.weight, hpoint])
      (hg.move hsize hwindow run.began hhere)
  | started hpoint hstage =>
    obtain ⟨hstarted, hgoing⟩ := hg.start hs hf hpoint hstage
    refine .quiet rfl rfl (Node.setRun_lane ..) ?_ hgoing
    simp only [Plan.rank, Plan.weight, hpoint, hstage, Run.started]
    omega
  | done hpoint hhead hdone =>
    refine .quiet rfl rfl (Node.setRun_lane ..) ?_ (hg.delivered hs hf hpoint hhead hdone)
    simp only [hpoint, Plan.Here] at hhere
    simp only [Plan.rank, hpoint, Run.delivered]
    split <;> simp only [Plan.weight] <;> omega
  | record hpoint =>
    simp only [hpoint, Plan.Here] at hhere
    exact .quiet rfl rfl (Node.setRun_lane ..) (by simp [Plan.rank, Plan.weight, hpoint])
      (hg.move hsize hwindow run.began hhere)
  | @save ts written hpoint =>
    simp only [hpoint, Plan.Here] at hhere
    obtain ⟨hselects, hsaves, hts⟩ := hhere
    have hdone : ts.done = true ↔ taken = plan.count := by
      have hiff : (plan.saved db saves).done = true ↔ plan.count ≤ saves + 1 := Plan.saved_done_iff saves
      rw [← hts] at hiff
      exact hiff.trans (by omega)
    refine ⟨⟨_, started, taken, Node.setRun_lane .., ?_, hg.move hsize hwindow run.began ?_⟩, fun chunk hchunk => ?_, fun s hs => ?_⟩
    · simp [Plan.rank, Plan.weight, hpoint]
    · rw [hpoint]
      exact ⟨hselects, hsaves, hdone⟩
    · cases hchunk
    · rw [hpoint] at hs
      cases hs
      exact hts
  | completed hpoint hdone =>
    simp only [hpoint, Plan.Here] at hhere
    obtain ⟨hselects, hsaves, hlast⟩ := hhere
    exact .quiet rfl rfl (Node.setRun_lane ..) (by simp [Plan.rank, Plan.weight, hpoint])
      (hg.move hsize hwindow run.began ⟨hselects, hsaves, hlast.mp hdone, rfl⟩)
  | progressed hpoint hdone =>
    simp only [hpoint, Plan.Here] at hhere
    obtain ⟨hselects, hsaves, hlast⟩ := hhere
    have htaken : taken < plan.count := by
      have : taken ≠ plan.count := fun heq => by simp [hlast.mpr heq] at hdone
      omega
    refine .quiet rfl rfl (Node.setRun_lane ..) ?_ (hg.move hsize hwindow run.began ?_)
    · simp only [Plan.rank, hpoint]
      split <;> simp [Plan.weight]
    · split <;> exact ⟨hselects, hsaves, htaken⟩
  | leave hpoint hstep =>
    simp only [hpoint, Plan.Here] at hhere
    exact .quiet rfl rfl (Node.setRun_lane ..) (by simp [Plan.rank, Plan.weight, hpoint])
      (hg.move hsize hwindow run.began hhere)
  | register hpoint hstep => exact hg.register hs hf hpoint hon hstep
  | emitted hpoint hemit hstep => exact hg.emitted hs hf hrun hpoint hon hemit hstep
  | selected hpoint hstep hnote => exact hg.select hs hf hpoint hon (ha run _ hrun hpoint) hstep hnote
  | publish hpoint hstep => exact hg.publish hs hf hrun hpoint hon hstep
  | emitFailed | selectFailed | restart | cancel | finished | returned => exact hcalm.elim
  | primaryKey hpoint | skip hpoint | load hpoint | reloadFailed hpoint | notFound hpoint | found hpoint | already hpoint
  | resume hpoint | fail hpoint | stopped hpoint | failed hpoint =>
    simp only [hpoint, Plan.Here] at hhere

omit [ToString V] in
theorem Plan.weight_congr {p' : Process V} {point : RunPoint}
    (hcall : ∀ i, point = .starting i → (p'.calls i).stage = (p.calls i).stage) :
    Plan.weight p' point = Plan.weight p point := by
  cases point with
  | starting i => simp only [Plan.weight, hcall i rfl]
  | _ => rfl

/-- **The steps of everything else** leave the run where it is. -/
theorem Plan.Going.other (hg : plan.Going db node.process l run started taken selects saves)
    (hn : Orderly db w.history node) (hf : plan.Fits db w.history.wal) {a : NodeAct V} (ha : node.Assumed db w a)
    (hstep : node.step w a = some (w', node')) (hl : ¬ a.moves l) :
    plan.Going db node'.process l run started taken selects saves ∧
      plan.rank node'.process started taken run.point = plan.rank node.process started taken run.point := by
  have hon := hn.onChunks ha hstep
  -- the chunk the run is starting is its own, so no other lane takes it further
  have hcall : ∀ i, Mine plan db node.process l i started →
      ∃ read, node'.process.calls i = { node.process.calls i with read } := fun i hm =>
    (hn.keeps_other ha hstep hl hm.registered hm.lane).call
  refine ⟨hg.move (hon.cfg ▸ hg.size) (hg.window_kept hn.sound hf hon) run.began ?_, ?_⟩
  · have hhere := hg.here
    cases hpoint : run.point with
    | starting i =>
      simp only [hpoint, Plan.Here] at hhere ⊢
      obtain ⟨hselects, hsaves, hstarted, hdepth, hmine, hready⟩ := hhere
      obtain ⟨read, hkept⟩ := hcall i hmine
      rw [hkept]
      exact ⟨hselects, hsaves, hstarted, hdepth, hmine.onChunks hn.sound hf hon (by rw [hkept]; exact hmine.live),
        ⟨hready.select, hready.publish⟩⟩
    | _ => rwa [hpoint] at hhere
  · refine congrArg (_ + ·) (Plan.weight_congr fun i hpoint => ?_)
    have hhere := hg.here
    simp only [hpoint, Plan.Here] at hhere
    obtain ⟨read, hkept⟩ := hcall i hhere.2.2.2.2.1
    rw [hkept]

omit [ToString V] in
/-- A watermark stands between transactions. -/
theorem boundary_of_mark {wal : List (Item V)} {q : ℕ} {content : Option WatermarkPayload}
    (hq : wal[q]? = some (.mark content)) : Database.Boundary wal (q + 1) := by
  refine ⟨lt_length hq, fun event hlast => ?_⟩
  rw [List.take_add_one, hq, Option.toList_some, List.getLast?_concat] at hlast
  cases hlast

/-- The run waits for the stream, or for the head of its window. -/
def Node.Waits (node : Node V) (run : Run) : Prop :=
  run.point = .waitForStream ∧ node.coordinator.streaming = false ∨
    ∃ head window, run.point = .await ∧ run.window = head :: window ∧ (node.process.chunk head).done = false

/-- **A run that has not ended** can go on, or waits. -/
theorem Plan.Going.enabled (hg : plan.Going db node.process l run started taken selects saves)
    (hn : Orderly db w.history node) (hf : plan.Fits db w.history.wal) (hrun : node.lanes l = .running run)
    (hend : run.point ≠ .returned none) :
    (∃ a : LaneAct V, a.Calm ∧ node.Assumed db w (.lane l a) ∧ (node.laneStep w l a).isSome) ∨ node.Waits run := by
  have hgo : ∀ a : LaneAct V, node.laneStep w l a = node.runStep w l run a := fun a => by
    unfold Node.laneStep
    rw [hrun]
  have hhere := hg.here
  cases hpoint : run.point with
  | announce => exact .inl ⟨.announce, trivial, trivial, by simp [hgo, Node.runStep, hpoint]⟩
  | fill => exact .inl ⟨.fill, trivial, trivial, by simp [hgo, Node.runStep, hpoint]⟩
  | waitForStream =>
    cases hup : node.coordinator.streaming with
    | false => exact .inr (.inl ⟨hpoint, hup⟩)
    | true => exact .inl ⟨.waitForStream, trivial, trivial, by simp [hgo, Node.runStep, hpoint, hup]⟩
  | register => exact .inl ⟨.register, trivial, trivial, by simp [hgo, Node.runStep, hpoint, Node.onProcess, Process.step]⟩
  | starting i =>
    simp only [hpoint, Plan.Here] at hhere
    obtain ⟨-, -, hstarted, -, hmine, hready⟩ := hhere
    refine .inl ?_
    cases hstage : (node.process.calls i).stage with
    | low =>
      exact ⟨.emit true none, trivial, trivial,
        by simp [hgo, Node.runStep, hpoint, Node.emitStep, Node.onProcess, Process.step, hstage]⟩
    | select =>
      obtain ⟨low, hlow⟩ := Option.ne_none_iff_exists'.mp (hready.select hstage)
      refine ⟨.select (.ok (low + 1, plan.chunk db started)), trivial, fun run' i' hrun' hpoint' => ?_,
        by simp [hgo, Node.runStep, hpoint, Node.selectStep, Node.onProcess, Process.step, hstage]⟩
      cases hrun.symm.trans hrun'
      cases hpoint.symm.trans hpoint'
      refine ⟨low, hlow, Nat.lt_succ_self low, boundary_of_mark ((hn.sound.call i hmine.registered).low low hlow), ?_⟩
      rw [hmine.table, hmine.cursor, hg.size]
      exact hf.firstRows (Nat.le_succ_of_le (hmine.low low hlow)) hstarted
    | publish =>
      obtain ⟨selection, hsel⟩ := Option.ne_none_iff_exists'.mp (hready.publish hstage)
      exact ⟨.publish, trivial, trivial, by simp [hgo, Node.runStep, hpoint, Node.onProcess, Process.step, hstage, hsel]⟩
    | high =>
      exact ⟨.emit true none, trivial, trivial,
        by simp [hgo, Node.runStep, hpoint, Node.emitStep, Node.onProcess, Process.step, hstage]⟩
    | returned => exact ⟨.started, trivial, trivial, by simp [hgo, Node.runStep, hpoint, hstage]⟩
    | abandon => exact absurd hstage hmine.live.1
    | failed => exact absurd hstage hmine.live.2
  | await =>
    simp only [hpoint, Plan.Here] at hhere
    obtain ⟨head, window, hwindow⟩ : ∃ head window, run.window = head :: window := by
      cases hwindow : run.window with
      | nil =>
        have hlength := hg.length
        rw [hwindow, List.length_nil] at hlength
        omega
      | cons head window => exact ⟨head, window, rfl⟩
    cases hdone : (node.process.chunk head).done with
    | false => exact .inr (.inr ⟨head, window, hpoint, hwindow, hdone⟩)
    | true => exact .inl ⟨.done, trivial, trivial, by simp [hgo, Node.runStep, hpoint, hwindow, hdone]⟩
  | record ts => exact .inl ⟨.record, trivial, trivial, by simp [hgo, Node.runStep, hpoint]⟩
  | save ts => exact .inl ⟨.save true, trivial, trivial, by simp [hgo, Node.runStep, hpoint]⟩
  | saved ts =>
    refine .inl ⟨.saved, trivial, trivial, ?_⟩
    simp only [hgo, Node.runStep, hpoint]
    split <;> rfl
  | delay => exact .inl ⟨.delay, trivial, trivial, by simp [hgo, Node.runStep, hpoint]⟩
  | leave err => exact .inl ⟨.leave, trivial, trivial, by simp [hgo, Node.runStep, hpoint, Node.onProcess, Process.step]⟩
  | returned err =>
    simp only [hpoint, Plan.Here] at hhere
    rw [hhere.2.2.2] at hpoint
    exact absurd hpoint hend
  | _ => simp only [hpoint, Plan.Here] at hhere

/-- What a node adds to the log is no change. -/
theorem Plan.Fits.onChunks (hf : plan.Fits db w.history.wal) (hon : node.OnChunks db w about w' node') :
    plan.Fits db w'.history.wal := by
  rcases hon with ⟨hhistory, -⟩ | ⟨a, hstep, -, -⟩
  · rw [hhistory]
    exact hf
  · rcases Process.step_wal hstep with hwal | ⟨i, mark, -, hwal⟩
    · rw [hwal]
      exact hf
    · rw [hwal]
      exact hf.append fun event hevent => by simp [mem_changes] at hevent

end Steps

/-! ## The run among the nodes -/

/-- The nodes, and what one run has done: what its selects answered, what it
handed to `SaveState` and whether that was written, and its steps. -/
structure Watch (N V : Type) where
  world : World N V
  selects : List (Chunk V) := []
  saves : List (TableState × Bool) := []
  steps : ℕ := 0

section Watch

variable {N : Type} [DecidableEq N]

def World.run? (w : World N V) (n : N) (l : ℕ) : Option Run := do
  let node ← w.nodes n
  match node.lanes l with
  | .running run => some run
  | _ => none

variable {run : Run}

/-- A step of the nodes, with the run of lane `l` of node `n` watched. -/
def Watch.step (n : N) (l : ℕ) (t : Watch N V) (a : WorldAct N V) : Option (Watch N V) := do
  let world ← t.world.step a
  match a with
  | .node m (.lane k b) =>
    if m = n ∧ k = l then
      return {
        world
        selects := t.selects ++ b.selection?.toList
        saves := t.saves ++ ((t.world.run? n l).bind fun run => b.save? run.point).toList
        steps := t.steps + 1 }
    else return { t with world }
  | _ => return { t with world }

/-- No live change of the table, no crash of the node, and no failure or restart
in the run. Everything else may happen in between. -/
def Watch.Calm (db : Database V) (n : N) (l : ℕ) (ref : TableRef) (t : Watch N V) (a : WorldAct N V) : Prop :=
  t.world.Assumed db a ∧
    match a with
    | .commit events => ∀ event ∈ events, eventRef event ≠ ref
    | .crash m => m ≠ n
    | .node m (.lane k b) => m = n → k = l → b.Calm
    | _ => True

/-- The watched run is on its plan. -/
structure Watch.OnPlan (plan : Plan V) (db : Database V) (n : N) (l : ℕ) (t : Watch N V) : Prop where
  orderly : WorldOrderly db t.world
  fits : plan.Fits db t.world.shared.history.wal
  selects : t.selects = (List.range t.selects.length).map (plan.chunk db)
  saves : t.saves.map (fun s => { s.1 with began := none }) = (List.range t.saves.length).map (plan.saved db)
  going : ∃ node run started taken, t.world.nodes n = some node ∧ node.lanes l = .running run ∧
    plan.Going db node.process l run started taken t.selects.length t.saves.length ∧
    t.steps + plan.rank node.process started taken run.point ≤ 14 * plan.count + 8

variable {plan : Plan V} {db : Database V} {n : N} {l : ℕ} {t t' : Watch N V}

omit [DecidableEq N] in
/-- A step that is not the run's. -/
theorem Watch.OnPlan.elsewhere (ht : t.OnPlan plan db n l) {world : World N V} (horderly : WorldOrderly db world)
    (hfits : plan.Fits db world.shared.history.wal)
    (hnode : ∀ node run started taken, t.world.nodes n = some node → node.lanes l = .running run →
      plan.Going db node.process l run started taken t.selects.length t.saves.length →
      ∃ node', world.nodes n = some node' ∧ node'.lanes l = .running run ∧
        plan.Going db node'.process l run started taken t.selects.length t.saves.length ∧
        plan.rank node'.process started taken run.point = plan.rank node.process started taken run.point) :
    Watch.OnPlan plan db n l { t with world } := by
  obtain ⟨node, run, started, taken, hn, hrun, hgoing, hsteps⟩ := ht.going
  obtain ⟨node', hn', hrun', hgoing', hrank⟩ := hnode node run started taken hn hrun hgoing
  exact ⟨horderly, hfits, ht.selects, ht.saves, node', run, started, taken, hn', hrun', hgoing', hrank ▸ hsteps⟩

theorem Watch.OnPlan.step (ht : t.OnPlan plan db n l) {a : WorldAct N V} (ha : t.Calm db n l plan.ref a)
    (hstep : t.step n l a = some t') : t'.OnPlan plan db n l := by
  simp only [Watch.step, Option.bind_eq_bind, Option.bind_eq_some_iff] at hstep
  obtain ⟨world, hworld, hrest⟩ := hstep
  obtain ⟨hassumed, hcalm⟩ := ha
  have horderly := ht.orderly.step hassumed hworld
  -- a step that leaves the node as it is
  have hkeep : plan.Fits db world.shared.history.wal → world.nodes n = t.world.nodes n →
      Watch.OnPlan plan db n l { t with world } := fun hfits hnodes =>
    ht.elsewhere horderly hfits fun node run _ _ hn hrun hgoing => ⟨node, hnodes.trans hn, hrun, hgoing, rfl⟩
  cases World.steps_of_step hworld with
  | commit =>
    cases hrest
    exact hkeep (ht.fits.append fun event hevent => hcalm event (by simpa [mem_changes] using hevent)) rfl
  | foreign =>
    cases hrest
    exact hkeep (ht.fits.append fun event hevent => by simp [mem_changes] at hevent) rfl
  | boot hdown =>
    cases hrest
    refine hkeep ht.fits (Function.update_of_ne ?_ _ _)
    rintro rfl
    obtain ⟨node, -, -, -, hn, -⟩ := ht.going
    cases hn.symm.trans hdown
  | crash =>
    cases hrest
    exact hkeep ht.fits (Function.update_of_ne (Ne.symm hcalm) _ _)
  | @node m b node node' shared hm hnode =>
    have hn := ht.orderly.nodes m node hm
    have hon := hn.onChunks (hassumed node hm) hnode
    have hfits := ht.fits.onChunks hon
    by_cases hours : m = n ∧ b.moves l
    · obtain ⟨rfl, hl⟩ := hours
      obtain ⟨node₀, run, started, taken, hnode₀, hrun, hgoing, hsteps⟩ := ht.going
      cases hm.symm.trans hnode₀
      cases b with
      | lane k b =>
        obtain rfl : l = k := hl
        simp only [and_self, if_true] at hrest
        cases hrest
        have hrunStep := Node.runSteps_of_laneStep hrun hnode
        have hsaved : ((t.world.run? m l).bind fun run => b.save? run.point) = b.save? run.point := by
          simp [World.run?, hm, hrun]
        obtain ⟨⟨run'', started', taken', hlane, hrank, hgoes⟩, hselected, hsave⟩ :=
          hgoing.runStep hn ht.fits hrun (hassumed node hm) (hcalm rfl rfl) hrunStep
        refine ⟨horderly, hfits, ?_, ?_, node', run'', started', taken', Function.update_self .., hlane, ?_, ?_⟩
        · have hlog := concat_eq_map_range (f := id) (by simpa using ht.selects) hselected
          simpa using hlog
        · rw [hsaved]
          exact concat_eq_map_range ht.saves hsave
        · simpa [hsaved] using hgoes
        · show t.steps + 1 + _ ≤ _
          omega
      | _ => cases hl
    · -- the step of another lane, another node or the session
      obtain rfl : t' = { t with world := { shared, nodes := Function.update t.world.nodes m (some node') } } := by
        cases b with
        | lane k b =>
          have hne : ¬ (m = n ∧ k = l) := fun heq => hours ⟨heq.1, heq.2.symm⟩
          simp only [if_neg hne] at hrest
          cases hrest
          rfl
        | _ =>
          cases hrest
          rfl
      by_cases hmn : m = n
      · subst hmn
        have hl : ¬ b.moves l := fun hl => hours ⟨rfl, hl⟩
        refine ht.elsewhere horderly hfits fun node₀ run started taken hnode₀ hrun hgoing => ?_
        cases hm.symm.trans hnode₀
        obtain ⟨hgoing', hrank⟩ := hgoing.other hn ht.fits (hassumed node hm) hnode hl
        exact ⟨node', Function.update_self .., (Node.step_lanes hnode hl).trans hrun, hgoing', hrank⟩
      · exact hkeep hfits (Function.update_of_ne (Ne.symm hmn) _ _)

/-- The last rows of the full chunks come one after the other. -/
theorem Plan.Fits.lastCursor_lt {wal : List (Item V)} (hf : plan.Fits db wal) {i j : ℕ} (hij : i < j) (hj : j + 1 < plan.count) :
    db.lt plan.ref (plan.chunk db i).lastCursor (plan.chunk db j).lastCursor := by
  obtain ⟨before, row, hrows, hlast⟩ := Plan.chunk_full db hf.size hj
  obtain ⟨-, first, -, hfirst⟩ := Plan.chunk_full db hf.size (Nat.lt_of_lt_of_le (Nat.succ_lt_succ hij) (Nat.le_of_lt hj))
  have hlist := hf.listing_at (Nat.le_refl _) (j := i + 1) (by omega)
  have hmem : row ∈ plan.rows.drop ((i + 1) * plan.size) := by
    have hrow : row ∈ plan.rows.drop (j * plan.size) := List.mem_of_mem_take (show row ∈ (plan.chunk db j).rows by simp [hrows])
    exact (List.drop_sublist_drop_left plan.rows (Nat.mul_le_mul_right plan.size hij)).subset hrow
  have hafter := ((hlist.mem row).mp hmem).2
  rw [Plan.cursorAt, hfirst] at hafter
  rw [hlast, hfirst]
  exact hafter.resolve_left (hf.order.cursor first.key)

/-- What a run that has returned has done: its chunks are the rows, cut after
every `size`; it saved the last key of every chunk but the last, and then that
it was done. -/
structure Watch.Complete (db : Database V) (ref : TableRef) (rows : List (Row V)) (size copied : ℕ) (t : Watch N V) : Prop where
  partition : t.selects.flatMap Chunk.rows = rows
  selects : t.selects.length = rows.length / size + 1
  cursors : t.saves.map (·.1.cursor) = t.selects.dropLast.map Chunk.lastCursor ++ [[]]
  lastKeys : ∀ chunk ∈ t.selects.dropLast, ∃ row, chunk.rows.getLast? = some row ∧ chunk.lastCursor = db.cursor ref row.key
  increasing : (t.selects.dropLast.map Chunk.lastCursor).Pairwise (db.lt ref)
  final : ∃ ts written, t.saves.getLast? = some (ts, written) ∧ ts.done = true ∧ ts.rowsCopied = copied + rows.length

omit [DecidableEq N] in
theorem Watch.OnPlan.complete (ht : t.OnPlan plan db n l) (hselects : t.selects.length = plan.count)
    (hsaves : t.saves.length = plan.count) : t.Complete db plan.ref plan.rows plan.size plan.copied := by
  have hf := ht.fits
  have hlog := ht.selects
  have hsaved := ht.saves
  rw [hselects] at hlog
  rw [hsaves] at hsaved
  have hcount : List.range plan.count = List.range (plan.rows.length / plan.size) ++ [plan.rows.length / plan.size] :=
    List.range_succ
  have hinit : t.selects.dropLast = (List.range (plan.rows.length / plan.size)).map (plan.chunk db) := by
    rw [hlog, hcount, List.map_append, List.map_singleton, List.dropLast_concat]
  have hfinal : plan.saved db (plan.rows.length / plan.size) = { done := true, rowsCopied := plan.copied + plan.rows.length } :=
    if_neg (Nat.lt_irrefl _)
  refine ⟨?_, hselects, ?_, fun chunk hchunk => ?_, ?_, ?_⟩
  · have hflat : t.selects.flatMap Chunk.rows = (pages plan.size plan.rows).flatten := by
      rw [hlog, List.flatMap_map, List.flatMap_def]
      rfl
    rw [hflat, flatten_pages hf.size]
  · have hcursors : t.saves.map (·.1.cursor) = (List.range plan.count).map fun j => (plan.saved db j).cursor := by
      have hmap := congrArg (List.map TableState.cursor) hsaved
      rwa [List.map_map, List.map_map] at hmap
    rw [hcursors, hinit, hcount, List.map_append, List.map_map, List.map_singleton, hfinal]
    refine congrArg (· ++ [[]]) (List.map_congr_left fun j hj => ?_)
    rw [Plan.saved_full (Nat.succ_lt_succ (List.mem_range.mp hj))]
    rfl
  · rw [hinit, List.mem_map] at hchunk
    obtain ⟨j, hj, rfl⟩ := hchunk
    obtain ⟨before, row, hrows, hlast⟩ := Plan.chunk_full db hf.size (Nat.succ_lt_succ (List.mem_range.mp hj))
    exact ⟨row, by rw [hrows, List.getLast?_concat], hlast⟩
  · rw [hinit, List.map_map, List.pairwise_map]
    exact List.pairwise_lt_range.imp_of_mem fun _ hj hij => hf.lastCursor_lt hij (Nat.succ_lt_succ (List.mem_range.mp hj))
  · have hlast := congrArg List.getLast? hsaved
    rw [hcount, List.map_append, List.map_singleton, List.getLast?_concat, hfinal, List.getLast?_map,
      Option.map_eq_some_iff] at hlast
    obtain ⟨⟨ts, written⟩, hlast, hts⟩ := hlast
    exact ⟨ts, written, hlast, congrArg TableState.done hts, congrArg TableState.rowsCopied hts⟩

end Watch

/-! ## `users`, one row at a time -/

end Gtc.Backfill
