/-
One node takes over from another.

A lane loads the progress of its table and then waits for the stream. Between
the two the node may be a standby for a long time, while the table goes on, is
completed or is reset elsewhere, and the lane will still go on from what it
loaded. That is harmless as long as what is persisted does not go back under
it: `World.KeepsReplays` and `World.Current` say that a table is reset, or
saved with less than it had, only while no other run goes on with it. What a
run goes on from is then never beyond what is persisted (`RunBacked`), and a
session that comes up finds its lanes so.
-/
import Gtc.Backfill.Schedule

namespace Gtc.Backfill

open Lib

variable {V : Type}

/-! ## Cursors and persisted progress -/

/-- A cursor is not beyond what is persisted: it is empty, or the table is done
or persisted with that cursor or a later one. -/
def NotBeyond [ToString V] (db : Database V) (ref : TableRef) (persisted : Option TableState) (cursor : List String) : Prop :=
  cursor = [] ∨ ∃ ts, persisted = some ts ∧
    (ts.done = true ∨ ts.cursor ≠ [] ∧ (cursor = ts.cursor ∨ db.lt ref cursor ts.cursor))

theorem notBeyond_self [ToString V] (db : Database V) (ref : TableRef) (ts : TableState) :
    NotBeyond db ref (some ts) ts.cursor := by
  by_cases hnil : ts.cursor = []
  · exact .inl hnil
  · exact .inr ⟨ts, rfl, .inr ⟨hnil, .inl rfl⟩⟩

theorem notBeyond_lookup [ToString V] (db : Database V) (ref : TableRef) (persisted : Option TableState) :
    NotBeyond db ref persisted (persisted.getD {}).cursor := by
  cases persisted with
  | none => exact .inl rfl
  | some ts => exact notBeyond_self db ref ts

/-- Progress that takes nothing back. -/
def Onward [ToString V] (db : Database V) (ref : TableRef) (old new : TableState) : Prop :=
  NotBeyond db ref (some new) old.cursor ∧ (old.done = true → new.done = true)

theorem NotBeyond.onward [ToString V] {db : Database V} (htrans : ∀ ref a b c, db.lt ref a b → db.lt ref b c → db.lt ref a c)
    {ref : TableRef} {old new : TableState} {cursor : List String} (h : NotBeyond db ref (some old) cursor)
    (hon : Onward db ref old new) : NotBeyond db ref (some new) cursor := by
  obtain ⟨hold, hdone⟩ := hon
  rcases h with hnil | ⟨ts, hts, hcase⟩
  · exact .inl hnil
  · cases hts
    refine .inr ⟨new, rfl, ?_⟩
    rcases hcase with hdone' | ⟨hne, hle⟩
    · exact .inl (hdone hdone')
    · rcases hold with hnil | ⟨ts, hts, hnew | ⟨hne', hle'⟩⟩
      · exact absurd hnil hne
      · cases hts
        exact .inl hnew
      · cases hts
        refine .inr ⟨hne', ?_⟩
        rcases hle with rfl | hlt
        · exact hle'
        · rcases hle' with heq | hlt'
          · exact .inr (heq ▸ hlt)
          · exact .inr (htrans ref _ _ _ hlt hlt')

/-- Between the load and the first select. -/
def RunPoint.beginning : RunPoint → Bool
  | .loaded _ | .resume | .announce | .fill | .waitForStream | .register | .starting _ | .abandoning _ _ => true
  | _ => false

/-- Before its first select a run holds no progress but what it has loaded. -/
theorem RunPoint.loaded_of_state {point : RunPoint} {ts : TableState} (hts : point.state? = some ts)
    (hbeginning : point.beginning = true) : point = .loaded (some (some ts)) := by
  unfold RunPoint.state? at hts
  split at hts
  · cases hts
    rfl
  · cases hbeginning
  · cases hbeginning
  · cases hts

/-- It has seen the stream up. -/
def RunPoint.launched : RunPoint → Bool
  | .register | .starting _ => true
  | _ => false

/-- It has not got to the stream. -/
def RunPoint.waiting : RunPoint → Bool
  | .loaded _ | .resume | .announce | .fill | .waitForStream => true
  | _ => false

/-- The run has selected nothing yet, or has noticed that its chunks were
abandoned and goes back to the stream. -/
structure Run.Settled (run : Run) : Prop where
  waiting : run.point.waiting = true
  idle : run.point.opening = false → run.window = [] ∧ run.exhausted = false ∧ run.next = run.cursor

/-! ## Runs behind the state table -/

section Backed

/-- The run holds progress that it has not persisted yet. -/
def RunPoint.unsaved : RunPoint → Bool
  | .record _ | .save _ => true
  | _ => false

/-- What a run goes on from is not beyond what is persisted, but for the progress
it is about to save. -/
structure RunBacked [ToString V] (db : Database V) (store state : StateMap) (run : Run) : Prop where
  held : run.point.unsaved = false → NotBeyond db run.ref (store.lookup run.ref.string) (run.held state).cursor
  saving : run.point.unsaved = true → ∀ ts, run.point.state? = some ts → ts.done = true ∨ ts.cursor = run.cursor

variable [ToString V] {db : Database V} {w w' : Shared V} {node node' : Node V} {l : ℕ} {run : Run} {a : LaneAct V}

/-- A run that has set its variables and has nothing to save. -/
theorem runBacked_of_cursor {store state : StateMap} (hopening : run.point.opening = false) (hsaved : run.point.unsaved = false)
    (hcursor : NotBeyond db run.ref (store.lookup run.ref.string) run.cursor) : RunBacked db store state run where
  held _ := by
    rw [Run.held_of_copying hopening]
    exact hcursor
  saving hunsaved := by
    rw [hsaved] at hunsaved
    cases hunsaved

theorem RunBacked.cursor {store state : StateMap} (hs : RunBacked db store state run) (hopening : run.point.opening = false)
    (hsaved : run.point.unsaved = false) : NotBeyond db run.ref (store.lookup run.ref.string) run.cursor := by
  have hheld := hs.held hsaved
  rwa [Run.held_of_copying hopening] at hheld

/-- The lane that takes the step. -/
theorem RunBacked.step (hs : run.point.holds = true → RunBacked db w.store node.coordinator.state run)
    (hanswered : run.point ≠ .loaded none) (hload : ∀ ok, a = .load ok → ok = true)
    (hsave : ∀ written, a = .save written → written = true) (hrun : node.lanes l = .running run)
    (hstep : Node.RunSteps w node l run a w' node') {run' : Run} (hrun' : node'.lanes l = .running run')
    (hholds : run'.point.holds = true) : RunBacked db w'.store node'.coordinator.state run' := by
  cases hstep with
  | @primaryKey answer hpoint =>
    obtain rfl := Node.eq_of_setRun hrun'
    cases answer with
    | error err => cases hholds
    | ok pkCols =>
      simp only [Run.primaryKey] at hholds
      split at hholds <;> cases hholds
  | @load ok hpoint =>
    obtain rfl := hload ok rfl
    obtain rfl := Node.eq_of_setRun hrun'
    exact ⟨fun _ => notBeyond_lookup db run.ref (w.store.lookup run.ref.string), fun h => by cases h⟩
  | reloadFailed hpoint => exact absurd hpoint hanswered
  | notFound hpoint =>
    obtain rfl := Node.eq_of_setRun hrun'
    refine ⟨fun _ => .inl ?_, fun h => by cases h⟩
    simp [Run.held, Run.reloaded, Node.coordinator, Node.setRun, Node.setLane, Node.keep, Coordinator.forget]
  | @found ts hpoint =>
    have hheld := (hs (by rw [hpoint]; rfl)).held (by rw [hpoint]; rfl)
    obtain rfl := Node.eq_of_setRun hrun'
    simp only [Run.reloaded] at hholds ⊢
    split at hholds
    · cases hholds
    · rename_i hdone
      simp only [if_neg hdone]
      refine ⟨fun _ => ?_, fun h => by cases h⟩
      simpa [Run.held, hpoint, Node.coordinator, Node.setRun, Node.setLane, Node.keep, Coordinator.setState] using hheld
  | resume hpoint =>
    have hheld := (hs (by rw [hpoint]; rfl)).held (by rw [hpoint]; rfl)
    simp only [Run.held, hpoint] at hheld
    obtain rfl := Node.eq_of_setRun hrun'
    exact runBacked_of_cursor rfl rfl hheld
  | announce hpoint | waitForStream hpoint | emitFailed hpoint | selectFailed hpoint | started hpoint | restart hpoint
  | register hpoint | delay hpoint =>
    have hcursor := (hs (by rw [hpoint]; rfl)).cursor (by rw [hpoint]; rfl) (by rw [hpoint]; rfl)
    obtain rfl := Node.eq_of_setRun hrun'
    exact runBacked_of_cursor rfl rfl hcursor
  | fill hpoint =>
    have hcursor := (hs (by rw [hpoint]; rfl)).cursor (by rw [hpoint]; rfl) (by rw [hpoint]; rfl)
    obtain rfl := Node.eq_of_setRun hrun'
    unfold Run.fill
    split <;> exact runBacked_of_cursor rfl rfl hcursor
  | progressed hpoint =>
    have hcursor := (hs (by rw [hpoint]; rfl)).cursor (by rw [hpoint]; rfl) (by rw [hpoint]; rfl)
    obtain rfl := Node.eq_of_setRun hrun'
    split <;> exact runBacked_of_cursor rfl rfl hcursor
  | emitted hpoint | publish hpoint =>
    have hcursor := (hs (by rw [hpoint]; rfl)).cursor (by rw [hpoint]; rfl) (by rw [hpoint]; rfl)
    obtain rfl := Lane.running.inj (hrun.symm.trans hrun')
    exact runBacked_of_cursor (by rw [hpoint]; rfl) (by rw [hpoint]; rfl) hcursor
  | selected hpoint _ hnote =>
    have hcursor := (hs (by rw [hpoint]; rfl)).cursor (by rw [hpoint]; rfl) (by rw [hpoint]; rfl)
    obtain ⟨firsts, selected, -, rfl, rfl⟩ := Node.noteSelect_eq hnote
    obtain rfl := Node.eq_of_setRun hrun'
    exact runBacked_of_cursor (by rw [Run.selected, hpoint]; rfl) (by rw [Run.selected, hpoint]; rfl) hcursor
  | done hpoint =>
    obtain rfl := Node.eq_of_setRun hrun'
    unfold Run.delivered
    dsimp only
    split
    · exact ⟨(fun h => by cases h), fun _ ts hts => by cases hts; exact .inl rfl⟩
    · exact ⟨(fun h => by cases h), fun _ ts hts => by cases hts; exact .inr rfl⟩
  | record hpoint =>
    have hsaving := (hs (by rw [hpoint]; rfl)).saving (by rw [hpoint]; rfl) _ (by rw [hpoint]; rfl)
    obtain rfl := Node.eq_of_setRun hrun'
    exact ⟨(fun h => by cases h), fun _ ts hts => by cases hts; exact hsaving⟩
  | @save ts written hpoint =>
    have hsaving := (hs (by rw [hpoint]; rfl)).saving (by rw [hpoint]; rfl) ts (by rw [hpoint]; rfl)
    obtain rfl := hsave written rfl
    obtain rfl := Node.eq_of_setRun hrun'
    refine runBacked_of_cursor rfl rfl ?_
    simp only [Shared.saveState, if_true, AList.lookup_insert]
    rcases hsaving with hdone | hcursor
    · exact .inr ⟨ts, rfl, .inl hdone⟩
    · exact hcursor ▸ notBeyond_self db run.ref ts
  | finished | stopped | failed => simp [Node.setLane] at hrun'
  | _ =>
    obtain rfl := Node.eq_of_setRun hrun'
    cases hholds

/-- A run that takes no step, while what is persisted for its table goes on. -/
theorem RunBacked.frame {store store' state state' : StateMap} (hs : RunBacked db store state run)
    (hstore : ∀ cursor, NotBeyond db run.ref (store.lookup run.ref.string) cursor →
      NotBeyond db run.ref (store'.lookup run.ref.string) cursor)
    (hstate : run.held state' = run.held state ∨ run.held state' = {}) : RunBacked db store' state' run where
  held hsaved := by
    rcases hstate with heq | heq
    · rw [heq]
      exact hstore _ (hs.held hsaved)
    · rw [heq]
      exact .inl rfl
  saving := hs.saving

end Backed

section Nodes

/-- A run of a table that the session has not selected from. -/
structure RunFresh [ToString V] (db : Database V) (node : Node V) (run : Run) : Prop where
  point : run.point.beginning = true
  idle : run.point.opening = false → run.window = [] ∧ run.exhausted = false ∧ run.next = run.cursor
  answered : run.point ≠ .loaded none
  unselected : ∀ i, run.point = .starting i → (node.process.calls i).selection = none
  cursor : node.coordinator.streaming = true ∨ run.point.launched = true →
    NotBeyond db run.ref (node.base.lookup run.ref.string) (run.held node.coordinator.state).cursor

/-- The session of a node, and what its tables go on from. -/
structure NodeFresh [ToString V] (db : Database V) (w : Shared V) (node : Node V) : Prop where
  stored : node.coordinator.streaming = true → ∀ ref, ref.Plain → ref ∉ node.selected → ∀ ts,
    w.store.lookup ref.string = some ts → NotBeyond db ref (node.base.lookup ref.string) ts.cursor
  runs : ∀ l run, node.lanes l = .running run → run.point.holds = true → run.ref ∉ node.selected → RunFresh db node run

variable [ToString V] {db : Database V} {w w' : Shared V} {node node' : Node V} {l : ℕ} {run : Run} {a : LaneAct V}

/-- A run that has set its variables and starts no chunk. -/
theorem runFresh_of_cursor (hpoint : run.point.beginning = true) (hopening : run.point.opening = false)
    (hidle : run.window = [] ∧ run.exhausted = false ∧ run.next = run.cursor) (hchunk : ∀ i, run.point ≠ .starting i)
    (hcursor : node.coordinator.streaming = true ∨ run.point.launched = true →
      NotBeyond db run.ref (node.base.lookup run.ref.string) run.cursor) : RunFresh db node run where
  point := hpoint
  idle _ := hidle
  answered heq := by
    rw [heq] at hopening
    cases hopening
  unselected i hi := absurd hi (hchunk i)
  cursor hup := by
    rw [Run.held_of_copying hopening]
    exact hcursor hup

theorem RunFresh.notBeyond (hs : RunFresh db node run) (hopening : run.point.opening = false)
    (hup : node.coordinator.streaming = true ∨ run.point.launched = true) :
    NotBeyond db run.ref (node.base.lookup run.ref.string) run.cursor := by
  have hcursor := hs.cursor hup
  rwa [Run.held_of_copying hopening] at hcursor

/-- The runs of the lanes that do not take the step. -/
theorem RunFresh.frame {moved : ℕ → Prop} (hs : RunFresh db node run) (hf : Frame moved node node')
    (hstreaming : node'.coordinator.streaming = true → node.coordinator.streaming = true) (hbase : node'.base = node.base)
    (hown : ∀ i, run.point.chunk? = some i → node.coordinator.Registered i ∧ ¬ moved (node.process.calls i).lane)
    (hmoved : ∀ l run' ts, moved l → node.lanes l = .running run' → run.ref.string = run'.ref.string →
      run'.point.state? = some ts → node.coordinator.streaming = true →
      NotBeyond db run.ref (node.base.lookup run.ref.string) ts.cursor) : RunFresh db node' run where
  point := hs.point
  idle := hs.idle
  answered := hs.answered
  unselected i hi := by
    obtain ⟨hreg, hlane⟩ := hown i (by rw [hi]; rfl)
    rw [(hf.calls i hreg hlane).2]
    exact hs.unselected i hi
  cursor hup := by
    have hup' := hup.imp_left hstreaming
    rw [hbase]
    rcases hf.held run with heq | heq | ⟨hpoint, l, run', hl, hrun', hname, hts⟩
    · rw [heq]
      exact hs.cursor hup'
    · rw [heq]
      exact .inl rfl
    · exact hmoved l run' _ hl hrun' hname hts (hup'.resolve_right (by rw [hpoint]; decide))

/-- A run up to its first select. -/
theorem RunFresh.step (hok : NodeOk db w.history node) (hs : run.point.holds = true → RunFresh db node run)
    (hstored : node.coordinator.streaming = true → ∀ ts, w.store.lookup run.ref.string = some ts →
      NotBeyond db run.ref (node.base.lookup run.ref.string) ts.cursor)
    (hload : ∀ ok, a = .load ok → ok = true) (hrun : node.lanes l = .running run)
    (hstep : Node.RunSteps w node l run a w' node') {run' : Run} (hrun' : node'.lanes l = .running run')
    (hholds : run'.point.holds = true) (hsel : run'.ref ∉ node'.selected) : RunFresh db node' run' := by
  have hlate : run.point.beginning = false → run.point.holds = true → False := fun hlate hholds => by
    have hpoint := (hs hholds).point
    rw [hlate] at hpoint
    cases hpoint
  cases hstep with
  | @primaryKey answer hpoint =>
    obtain rfl := Node.eq_of_setRun hrun'
    cases answer with
    | error err => cases hholds
    | ok pkCols =>
      simp only [Run.primaryKey] at hholds
      split at hholds <;> cases hholds
  | @load ok hpoint =>
    obtain rfl := hload ok rfl
    obtain rfl := Node.eq_of_setRun hrun'
    refine ⟨rfl, (fun hopening => by cases hopening), by simp, (fun _ hi => by cases hi), fun hup => ?_⟩
    have hup : node.coordinator.streaming = true := hup.resolve_right (by simp [RunPoint.launched])
    show NotBeyond db run.ref (node.base.lookup run.ref.string) ((w.store.lookup run.ref.string).getD {}).cursor
    cases hts : w.store.lookup run.ref.string with
    | none => exact .inl rfl
    | some ts => exact hstored hup ts hts
  | reloadFailed hpoint => exact absurd hpoint (hs (by rw [hpoint]; rfl)).answered
  | notFound hpoint =>
    obtain rfl := Node.eq_of_setRun hrun'
    refine ⟨rfl, (fun hopening => by cases hopening), by simp [Run.reloaded], (fun _ hi => by cases hi), fun _ => .inl ?_⟩
    simp [Run.held, Run.reloaded, Node.coordinator, Node.setRun, Node.setLane, Node.keep, Coordinator.forget]
  | @found ts hpoint =>
    have hs := hs (by rw [hpoint]; rfl)
    obtain rfl := Node.eq_of_setRun hrun'
    simp only [Run.reloaded] at hholds ⊢
    split at hholds
    · cases hholds
    · rename_i hdone
      simp only [if_neg hdone]
      refine ⟨rfl, (fun hopening => by cases hopening), by simp, (fun _ hi => by cases hi), fun hup => ?_⟩
      have hcursor := hs.cursor (.inl (hup.resolve_right (by simp [RunPoint.launched])))
      simpa [Run.held, hpoint, Node.coordinator, Node.setRun, Node.setLane, Node.keep, Coordinator.setState] using hcursor
  | resume hpoint =>
    have hs := hs (by rw [hpoint]; rfl)
    obtain rfl := Node.eq_of_setRun hrun'
    refine runFresh_of_cursor rfl rfl ⟨rfl, rfl, rfl⟩ (fun _ hi => by cases hi) fun hup => ?_
    have hcursor := hs.cursor (.inl (hup.resolve_right (by simp [RunPoint.launched, Run.resume])))
    simp only [Run.held, hpoint] at hcursor
    exact hcursor
  | announce hpoint =>
    have hs := hs (by rw [hpoint]; rfl)
    obtain rfl := Node.eq_of_setRun hrun'
    exact runFresh_of_cursor rfl rfl (hs.idle (by rw [hpoint]; rfl)) (fun _ hi => by cases hi) fun hup =>
      hs.notBeyond (by rw [hpoint]; rfl) (.inl (hup.resolve_right (by simp [RunPoint.launched])))
  | fill hpoint =>
    have hs := hs (by rw [hpoint]; rfl)
    obtain rfl := Node.eq_of_setRun hrun'
    obtain ⟨hwindow, hexhausted, hnext⟩ := hs.idle (by rw [hpoint]; rfl)
    have hfill : run.fill = { run with point := .waitForStream } := by
      simp [Run.fill, hwindow, hexhausted, pipelineDepth]
    rw [hfill]
    exact runFresh_of_cursor rfl rfl ⟨hwindow, hexhausted, hnext⟩ (fun _ hi => by cases hi) fun hup =>
      hs.notBeyond (by rw [hpoint]; rfl) (.inl (hup.resolve_right (by simp [RunPoint.launched])))
  | waitForStream hpoint hup =>
    have hs := hs (by rw [hpoint]; rfl)
    obtain rfl := Node.eq_of_setRun hrun'
    exact runFresh_of_cursor rfl rfl (hs.idle (by rw [hpoint]; rfl)) (fun _ hi => by cases hi) fun _ =>
      hs.notBeyond (by rw [hpoint]; rfl) (.inl hup)
  | register hpoint hstep =>
    have hs := hs (by rw [hpoint]; rfl)
    cases hstep
    obtain rfl := Node.eq_of_setRun hrun'
    refine ⟨rfl, fun _ => hs.idle (by rw [hpoint]; rfl), by simp, fun i hi => ?_, fun _ => ?_⟩
    · cases hi
      simp [Node.setRun, Node.setLane, Process.register]
    · rw [Run.held_of_copying rfl]
      exact hs.notBeyond (by rw [hpoint]; rfl) (.inr (by rw [hpoint]; rfl))
  | @emitted i a written h p hpoint ha hstep =>
    have hs := hs (by rw [hpoint]; rfl)
    obtain rfl : run = run' := Lane.running.inj (hrun.symm.trans hrun')
    refine ⟨hs.point, hs.idle, hs.answered, fun j hj => ?_, fun _ => ?_⟩
    · obtain rfl : i = j := RunPoint.starting.inj (hpoint.symm.trans hj)
      have hunselected := hs.unselected i hpoint
      rcases ha with rfl | rfl
      · cases Process.steps_of_step hstep with
        | emitLow => simpa [Process.emitLow, Process.setCall] using hunselected
      · cases Process.steps_of_step hstep with
        | emitHigh => simpa [Process.emitHigh, Process.setCall] using hunselected
    · rw [Run.held_of_copying (by rw [hpoint]; rfl)]
      exact hs.notBeyond (by rw [hpoint]; rfl) (.inr (by rw [hpoint]; rfl))
  | emitFailed hpoint | selectFailed hpoint =>
    have hs := hs (by rw [hpoint]; rfl)
    obtain rfl := Node.eq_of_setRun hrun'
    exact runFresh_of_cursor rfl rfl (hs.idle (by rw [hpoint]; rfl)) (fun _ hi => by cases hi) fun _ =>
      hs.notBeyond (by rw [hpoint]; rfl) (.inr (by rw [hpoint]; rfl))
  | @selected i snapshot chunk h p hpoint hstep w' node' hnote =>
    -- from here on the session has selected from the table
    unfold Node.noteSelect at hnote
    split at hnote
    · rename_i hmem
      cases hnote
      obtain rfl := Node.eq_of_setRun hrun'
      exact absurd hmem hsel
    · cases hnote
      obtain rfl := Node.eq_of_setRun hrun'
      exact absurd List.mem_cons_self hsel
  | publish hpoint hstep =>
    have hunselected := (hs (by rw [hpoint]; rfl)).unselected _ hpoint
    cases Process.steps_of_step hstep with
    | publish hstage hsel' =>
      rw [hunselected] at hsel'
      cases hsel'
  | @started i hpoint hstage =>
    have hunselected := (hs (by rw [hpoint]; rfl)).unselected _ hpoint
    obtain ⟨s, chunk, hsel', -⟩ := (hok.sound.call i ((hok.runs l run hrun).starts hpoint).registered).published (.inr hstage)
    rw [hunselected] at hsel'
    cases hsel'
  | restart hpoint | done hpoint | record hpoint | save hpoint | progressed hpoint | delay hpoint =>
    exact (hlate (by rw [hpoint]; rfl) (by rw [hpoint]; rfl)).elim
  | finished | stopped | failed =>
    simp [Node.setLane] at hrun'
  | _ =>
    obtain rfl := Node.eq_of_setRun hrun'
    cases hholds

theorem Steady.step {a : NodeAct V} (hup : ∀ pos, a ≠ .stream (.up pos)) (hstep : node.step w a = some (w', node')) :
    Steady node node' := by
  cases Node.steps_of_step hstep with
  | @stream a =>
    cases a with
    | up pos => exact absurd rfl (hup pos)
    | _ =>
      obtain ⟨h, p, hcall, -, heq⟩ := Node.onProcess_eq_some hstep
      rw [heq]
      exact ⟨Process.step_streaming hcall (fun _ h => by cases h), rfl, fun _ h => h⟩
  | run _ hstep => exact .runStep hstep
  | @grant r request =>
    have hc := Coordinator.foldl_chunks (Coordinator.grantTable_chunks request.kind) request.tables node.coordinator
    exact ⟨fun h => hc.streaming ▸ h, rfl, fun _ h => h⟩
  | _ => exact ⟨fun h => h, rfl, fun _ h => h⟩

/-- What the other nodes persist: nothing while this one streams, but resets. -/
theorem NodeFresh.shared (hs : NodeFresh db w node) (hstore : node.coordinator.streaming = true → ∀ name ts,
      w'.store.lookup name = some ts → w.store.lookup name = some ts ∨ ts.cursor = []) : NodeFresh db w' node where
  stored hup ref hplain hsel ts hts := by
    rcases hstore hup _ ts hts with hold | hnil
    · exact hs.stored hup ref hplain hsel ts hold
    · exact .inl hnil
  runs := hs.runs

/-- A session comes up while its lanes have nothing under way. -/
theorem NodeFresh.up {pos : ℕ} (hsince : NodeSince w node) (hbacked : ∀ l run, node.lanes l = .running run →
      run.point.holds = true → RunBacked db w.store node.coordinator.state run)
    (hsettled : ∀ l run, node.lanes l = .running run → run.point.holds = true → run.Settled)
    (hstep : node.step w (.stream (.up pos)) = some (w', node')) : NodeFresh db w' node' := by
  simp only [Node.step, Node.streamStep, Option.map_eq_some_iff] at hstep
  obtain ⟨⟨w₁, node₁⟩, hprocess, hrest⟩ := hstep
  obtain ⟨h, p, hcall, rfl, rfl⟩ := Node.onProcess_eq_some hprocess
  cases hrest
  refine ⟨fun _ ref _ _ ts hts => ?_, fun l run hrun hholds _ => ?_⟩
  · rw [show w.store.lookup ref.string = some ts from hts]
    exact notBeyond_self db ref ts
  · have hwaiting := (hsettled l run hrun hholds).waiting
    refine ⟨?_, (hsettled l run hrun hholds).idle, (hsince l run hrun hholds).answered, fun i hi => ?_, fun _ => ?_⟩
    · cases hpoint : run.point <;> first | rfl | (rw [hpoint] at hwaiting; cases hwaiting)
    · rw [hi] at hwaiting
      cases hwaiting
    · have hsaved : run.point.unsaved = false := by
        cases hpoint : run.point <;> first | rfl | (rw [hpoint] at hwaiting; cases hwaiting)
      show NotBeyond db run.ref (w.store.lookup run.ref.string) (run.held p.coordinator.state).cursor
      rw [(Process.step_tables hcall).state]
      exact (hbacked l run hrun hholds).held hsaved

theorem NodeFresh.step (hok : NodeOk db w.history node) (hs : NodeFresh db w node) {a : NodeAct V}
    (hup : ∀ pos, a ≠ .stream (.up pos)) (hload : ∀ l ok, a = .lane l (.load ok) → ok = true)
    (hstep : node.step w a = some (w', node')) : NodeFresh db w' node' := by
  have hf := Frame.step hok hstep
  have hsteady := Steady.step hup hstep
  have hout : ∀ {ref : TableRef}, ref ∉ node'.selected → ref ∉ node.selected := fun hsel hmem =>
    hsel (hsteady.selected _ hmem)
  refine ⟨fun hstreaming ref hplain hsel ts hts => ?_, fun l run hrun hholds hsel => ?_⟩
  · rw [hsteady.base]
    have hold := hs.stored (hsteady.streaming hstreaming) ref hplain (hout hsel)
    rcases Node.step_shared hstep with ⟨-, hstore⟩ | ⟨l, run, ts', written, -, hrun, hpoint, -, hstore⟩ |
      ⟨r, written, request, -, -, rfl⟩
    · exact hold ts (hstore ▸ hts)
    · rw [hstore] at hts
      by_cases hname : ref.string = run.ref.string
      · -- a run saves progress only after the session has selected from its table
        obtain rfl := TableRef.string_inj hplain (hok.runs l run hrun).plain hname
        have hpoint' := (hs.runs l run hrun (by rw [hpoint]; rfl) (hout hsel)).point
        rw [hpoint] at hpoint'
        cases hpoint'
      · rw [AList.lookup_insert_ne hname] at hts
        exact hold ts hts
    · simp only [Shared.markPending, if_true, lookup_markPending] at hts
      split at hts
      · cases hts
        exact .inl rfl
      · exact hold ts hts
  · by_cases hl : a.moves l
    · cases a with
      | lane l' a =>
        obtain rfl : l = l' := hl
        rcases Node.laneStep_running hstep hrun with ⟨run₀, hrun₀, hstep⟩ | ⟨ref, -, rfl⟩
        · have href : run.ref = run₀.ref := hstep.ref hrun₀ hrun
          have hsel₀ : run₀.ref ∉ node.selected := href ▸ hout hsel
          exact RunFresh.step hok (fun hholds₀ => hs.runs l run₀ hrun₀ hholds₀ hsel₀)
            (fun hstreaming => hs.stored hstreaming run₀.ref (hok.runs l run₀ hrun₀).plain hsel₀)
            (fun ok hok => hload l ok (by rw [hok])) hrun₀ hstep hrun hholds hsel
        · cases hholds
      | _ => exact hl.elim
    · have hrun₀ : node.lanes l = .running run := (hf.lanes l hl).symm.trans hrun
      have hr := hok.runs l run hrun₀
      refine (hs.runs l run hrun₀ hholds (hout hsel)).frame hf hsteady.streaming hsteady.base (fun i hi => ?_)
        fun l' run' ts _ hrun' hname hts hstreaming => ?_
      · obtain ⟨hreg, hlane⟩ := hr.own i hi
        exact ⟨hreg, by rwa [hlane]⟩
      · -- two lanes at the same table: the other has loaded progress, or is past its first select
        have href := TableRef.string_inj hr.plain (hok.runs l' run' hrun').plain hname
        have hs' := hs.runs l' run' hrun' (RunPoint.holds_of_state hts) (href ▸ hout hsel)
        have hpoint := RunPoint.loaded_of_state hts hs'.point
        have hcursor := hs'.cursor (.inl hstreaming)
        simp only [Run.held, hpoint, Option.join_some, Option.getD_some] at hcursor
        rw [href]
        exact hcursor

/-- What is remembered of a table's first select. -/
theorem Node.step_firsts {a : NodeAct V} (hstep : node.step w a = some (w', node')) :
    w'.firsts = w.firsts ∨ ∃ l run i, node.lanes l = .running run ∧ run.point = .starting i ∧ run.ref ∉ node.selected ∧
      w'.firsts = w.firsts ++ [{ table := run.ref, cursor := run.next, persisted := node.base.lookup run.ref.string }] := by
  cases Node.steps_of_step hstep with
  | @run l run _ _ _ hrun hstep =>
    cases hstep with
    | @selected i _ _ _ _ hpoint _ _ _ hnote =>
      unfold Node.noteSelect at hnote
      split at hnote
      · cases hnote
        exact .inl rfl
      · rename_i hsel
        cases hnote
        exact .inr ⟨l, run, i, hrun, hpoint, hsel, rfl⟩
    | @save ts written => cases written <;> exact .inl rfl
    | _ => exact .inl rfl
  | @mark r written => cases written <;> exact .inl rfl
  | _ => exact .inl rfl

/-- The first select of a table in a session. -/
theorem NodeFresh.firsts (hs : NodeFresh db w node) (hfirsts : ∀ f ∈ w.firsts, NotBeyond db f.table f.persisted f.cursor)
    {a : NodeAct V} (hstep : node.step w a = some (w', node')) : ∀ f ∈ w'.firsts, NotBeyond db f.table f.persisted f.cursor := by
  rcases Node.step_firsts hstep with hsame | ⟨l, run, i, hrun, hpoint, hsel, hadded⟩
  · rw [hsame]
    exact hfirsts
  · rw [hadded]
    intro f hf
    rcases List.mem_append.mp hf with hf | hf
    · exact hfirsts f hf
    · obtain rfl := List.mem_singleton.mp hf
      have hfresh := hs.runs l run hrun (by rw [hpoint]; rfl) hsel
      show NotBeyond db run.ref (node.base.lookup run.ref.string) run.next
      rw [(hfresh.idle (by rw [hpoint]; rfl)).2.2]
      exact hfresh.notBeyond (by rw [hpoint]; rfl) (.inr (by rw [hpoint]; rfl))

end Nodes

/-! ## Over all nodes -/

section World

variable [ToString V] {N : Type} [DecidableEq N] {db : Database V} {w w' : World N V}

/-- No other node streams. -/
def World.Alone (w : World N V) (n : N) : Prop :=
  ∀ m node, m ≠ n → w.nodes m = some node → node.coordinator.streaming = false

/-- At most one node streams: a session comes up when none is. -/
def World.Exclusive (w : World N V) : WorldAct N V → Prop
  | .node n (.stream (.up _)) => w.Alone n
  | _ => True

/-- No `SaveState` or `MarkPending` fails. -/
def WorldAct.Persists : WorldAct N V → Prop
  | .node _ (.lane _ (.save written)) => written = true
  | .node _ (.mark _ written) => written = true
  | _ => True

/-- A session comes up when the lanes of its node have noticed the last stop, and
progress is saved while no other node streams. It is not less than what is
persisted, unless no other run goes on with the table. -/
def World.Current (db : Database V) (w : World N V) : WorldAct N V → Prop
  | .node n (.stream (.up _)) => ∀ node, w.nodes n = some node → ∀ l run, node.lanes l = .running run →
      run.point.holds = true → run.Settled
  | .node n (.lane l (.save _)) => w.Alone n ∧ ∀ node run ts old, w.nodes n = some node → node.lanes l = .running run →
      run.point = .save ts → w.shared.store.lookup run.ref.string = some old → Onward db run.ref old ts ∨
        ∀ m node' l' run', w.nodes m = some node' → node'.lanes l' = .running run' → run'.point.holds = true →
          run'.ref = run.ref → m = n ∧ l' = l
  | _ => True

/-- What is asked of the steps of a takeover. -/
structure World.Takes (db : Database V) (w : World N V) (a : WorldAct N V) : Prop where
  assumed : w.Assumed db a
  plain : a.Plain
  exclusive : w.Exclusive a
  persists : a.Persists
  keeps : w.KeepsReplays a
  current : w.Current db a

structure TakeoverOk (db : Database V) (w : World N V) : Prop where
  replay : ReplayOk db w
  scheduled : ∀ n node, w.nodes n = some node → Scheduled node
  backed : ∀ n node, w.nodes n = some node → ∀ l run, node.lanes l = .running run → run.point.holds = true →
    RunBacked db w.shared.store node.coordinator.state run
  exclusive : ∀ m n node node', w.nodes m = some node → w.nodes n = some node' → node.coordinator.streaming = true →
    node'.coordinator.streaming = true → m = n
  nodes : ∀ n node, w.nodes n = some node → NodeFresh db w.shared node
  firsts : ∀ f ∈ w.shared.firsts, NotBeyond db f.table f.persisted f.cursor

omit [DecidableEq N] in
theorem takeoverOk_start (db : Database V) : TakeoverOk db ({} : World N V) where
  replay := replayOk_start db
  scheduled _ _ hn := nomatch hn
  backed _ _ hn := nomatch hn
  exclusive _ _ _ _ hn := nomatch hn
  nodes _ _ hn := nomatch hn
  firsts _ hf := nomatch hf

/-- A node boots or crashes. -/
theorem TakeoverOk.setNode (hw : TakeoverOk db w) {n : N} {node : Option (Node V)} (hreplay : ReplayOk db (w.setNode n node))
    (hscheduled : ∀ m node', (w.setNode n node).nodes m = some node' → Scheduled node')
    (hidle : ∀ node', node = some node' → node'.coordinator.streaming = false ∧ ∀ l run, node'.lanes l ≠ .running run) :
    TakeoverOk db (w.setNode n node) := by
  have hold : ∀ m node', (w.setNode n node).nodes m = some node' →
      w.nodes m = some node' ∨ node'.coordinator.streaming = false ∧ ∀ l run, node'.lanes l ≠ .running run := by
    intro m node' hm
    by_cases hmn : m = n
    · subst hmn
      simp only [World.setNode, Function.update_self] at hm
      exact .inr (hidle node' hm)
    · simp only [World.setNode, Function.update_of_ne hmn] at hm
      exact .inl hm
  refine ⟨hreplay, hscheduled, fun m node' hm l run hrun hholds => ?_, fun m m' a b ha hb hsa hsb => ?_,
    fun m node' hm => ?_, hw.firsts⟩
  · rcases hold m node' hm with hm | ⟨-, hlanes⟩
    · exact hw.backed m node' hm l run hrun hholds
    · exact absurd hrun (hlanes l run)
  · rcases hold m a ha with ha | ⟨hoff, -⟩
    · rcases hold m' b hb with hb | ⟨hoff, -⟩
      · exact hw.exclusive m m' a b ha hb hsa hsb
      · rw [hoff] at hsb
        cases hsb
    · rw [hoff] at hsa
      cases hsa
  · rcases hold m node' hm with hm | ⟨hoff, hlanes⟩
    · exact hw.nodes m node' hm
    · refine ⟨fun hup => ?_, fun l run hrun => absurd hrun (hlanes l run)⟩
      rw [hoff] at hup
      cases hup

/-- The sessions that are up after a step were up before, or one has just come
up alone. -/
theorem TakeoverOk.exclusive_node (hw : TakeoverOk db w) {n : N} {node node' : Node V} (hn : w.nodes n = some node)
    {a : NodeAct V} (hexclusive : w.Exclusive (.node n a)) {shared : Shared V} (hstep : node.step w.shared a = some (shared, node'))
    {m m' : N} {c c' : Node V} (hc : Function.update w.nodes n (some node') m = some c)
    (hc' : Function.update w.nodes n (some node') m' = some c') (hup : c.coordinator.streaming = true)
    (hup' : c'.coordinator.streaming = true) : m = m' := by
  by_cases hjust : ∃ pos, a = .stream (.up pos)
  · obtain ⟨pos, rfl⟩ := hjust
    rcases update_node_cases hc with ⟨rfl, rfl⟩ | ⟨hmn, hc⟩
    · rcases update_node_cases hc' with ⟨rfl, rfl⟩ | ⟨hmn, hc'⟩
      · rfl
      · rw [hexclusive m' c' hmn hc'] at hup'
        cases hup'
    · rw [hexclusive m c hmn hc] at hup
      cases hup
  · have hsteady := Steady.step (fun pos heq => hjust ⟨pos, heq⟩) hstep
    have hbefore : ∀ {m c}, Function.update w.nodes n (some node') m = some c → c.coordinator.streaming = true →
        ∃ c', w.nodes m = some c' ∧ c'.coordinator.streaming = true := by
      intro m c hc hup
      rcases update_node_cases hc with ⟨rfl, rfl⟩ | ⟨-, hc⟩
      · exact ⟨node, hn, hsteady.streaming hup⟩
      · exact ⟨c, hc, hup⟩
    obtain ⟨d, hd, hdup⟩ := hbefore hc hup
    obtain ⟨d', hd', hdup'⟩ := hbefore hc' hup'
    exact hw.exclusive m m' d d' hd hd' hdup hdup'

section Order

variable (htrans : ∀ ref a b c, db.lt ref a b → db.lt ref b c → db.lt ref a c)
include htrans

variable {n m : N} {node node' c : Node V} {a : NodeAct V} {shared : Shared V} {l : ℕ} {run : Run}

omit [DecidableEq N] in
/-- What is persisted for the table of a run that takes no step goes on. -/
theorem TakeoverOk.store_onward (hw : TakeoverOk db w) (hn : w.nodes n = some node) (ha : w.Takes db (.node n a))
    (hstep : node.step w.shared a = some (shared, node')) (hm : w.nodes m = some c) (hrun : c.lanes l = .running run)
    (hholds : run.point.holds = true) (hother : ¬ (m = n ∧ a.moves l)) {cursor : List String}
    (h : NotBeyond db run.ref (w.shared.store.lookup run.ref.string) cursor) :
    NotBeyond db run.ref (shared.store.lookup run.ref.string) cursor := by
  have hok := hw.replay.ok.nodes n node hn
  have hplain := ((hw.replay.ok.nodes m c hm).runs l run hrun).plain
  rcases Node.step_shared hstep with ⟨-, hstore⟩ | ⟨l', run', ts, written, rfl, hrun', hpoint, -, hstore⟩ |
    ⟨r, written, request, rfl, hr, rfl⟩
  · rw [hstore]
    exact h
  · rw [hstore]
    by_cases hname : run.ref.string = run'.ref.string
    · have href := TableRef.string_inj hplain (hok.runs l' run' hrun').plain hname
      rw [hname, AList.lookup_insert]
      rw [hname] at h
      cases hold : w.shared.store.lookup run'.ref.string with
      | none =>
        rw [hold] at h
        rcases h with hnil | ⟨_, hts, -⟩
        · exact .inl hnil
        · cases hts
      | some old =>
        rw [hold] at h
        rcases ha.current.2 node run' ts old hn hrun' hpoint hold with hon | honly
        · exact h.onward htrans (href ▸ hon)
        · exact absurd (honly m c l run hm hrun hholds href) hother
    · rwa [AList.lookup_insert_ne hname]
  · have hname := string_notMem hplain (hok.requests r request hr) (ha.keeps node request hn hr m c l run hm hrun hholds)
    simp only [Shared.markPending, if_true, lookup_markPending, if_neg hname]
    exact h

/-- What the runs go on from stays behind what is persisted. -/
theorem TakeoverOk.backed_node (hw : TakeoverOk db w) (hn : w.nodes n = some node) (ha : w.Takes db (.node n a))
    (hstep : node.step w.shared a = some (shared, node')) (hc : Function.update w.nodes n (some node') m = some c)
    (hrun : c.lanes l = .running run) (hholds : run.point.holds = true) :
    RunBacked db shared.store c.coordinator.state run := by
  rcases update_node_cases hc with ⟨rfl, rfl⟩ | ⟨hmn, hc⟩
  · by_cases hl : a.moves l
    · cases a with
      | lane l' b =>
        obtain rfl : l = l' := hl
        rcases Node.laneStep_running hstep hrun with ⟨run₀, hrun₀, hstep⟩ | ⟨ref, -, rfl⟩
        · refine RunBacked.step (hw.backed m node hn l run₀ hrun₀) (fun hpoint => ?_) (fun ok heq => ?_) (fun written heq => ?_)
            hrun₀ hstep hrun hholds
          · exact (hw.replay.nodes m node hn l run₀ hrun₀ (by rw [hpoint]; rfl)).answered hpoint
          · subst heq
            exact ha.keeps
          · subst heq
            exact ha.persists
        · cases hholds
      | _ => exact hl.elim
    · have hf := Frame.step (hw.replay.ok.nodes m node hn) hstep
      have hrun₀ : node.lanes l = .running run := (hf.lanes l hl).symm.trans hrun
      refine (hw.backed m node hn l run hrun₀ hholds).frame (fun cursor => hw.store_onward htrans hn ha hstep hn
        hrun₀ hholds fun h => hl h.2) ?_
      rcases hf.held run with heq | heq | ⟨hpoint, l', run', hl', hrun', hname, hts⟩
      · exact .inl heq
      · exact .inr heq
      · -- no other lane of the node is at the same table
        have hok := hw.replay.ok.nodes m node hn
        have href := TableRef.string_inj (hok.runs l run hrun₀).plain (hok.runs l' run' hrun').plain hname
        have htable : (node.lanes l).table? = some run.ref := by
          rw [hrun₀, Lane.table?_running (by rw [hpoint]; rfl)]
        have htable' : (node.lanes l').table? = some run.ref := by
          rw [hrun', href, Lane.table?_running]
          cases hover : run'.point <;> first | rfl | (rw [hover] at hts; cases hts)
        exact absurd ((hw.scheduled m node hn).once l l' run.ref htable htable' ▸ hl') hl
  · exact (hw.backed m c hc l run hrun hholds).frame (fun cursor => hw.store_onward htrans hn ha hstep hc hrun
      hholds fun h => hmn h.1) (.inl rfl)

/-- A node takes a step. -/
theorem TakeoverOk.nodeStep (hw : TakeoverOk db w) (hn : w.nodes n = some node) (ha : w.Takes db (.node n a))
    (hstep : node.step w.shared a = some (shared, node'))
    (hreplay : ReplayOk db { shared, nodes := Function.update w.nodes n (some node') })
    (hscheduled : ∀ m c, Function.update w.nodes n (some node') m = some c → Scheduled c) :
    TakeoverOk db { shared, nodes := Function.update w.nodes n (some node') } := by
  refine ⟨hreplay, hscheduled, fun m c hc l run => hw.backed_node htrans hn ha hstep hc,
    fun m m' c c' hc hc' hup hup' => hw.exclusive_node hn ha.exclusive hstep hc hc' hup hup', fun m c hc => ?_,
    (hw.nodes n node hn).firsts hw.firsts hstep⟩
  rcases update_node_cases hc with ⟨rfl, rfl⟩ | ⟨hmn, hc⟩
  · by_cases hjust : ∃ pos, a = .stream (.up pos)
    · obtain ⟨pos, rfl⟩ := hjust
      exact NodeFresh.up (hw.replay.nodes m node hn) (hw.backed m node hn) (ha.current node hn) hstep
    · refine (hw.nodes m node hn).step (hw.replay.ok.nodes m node hn) (fun pos heq => hjust ⟨pos, heq⟩) (fun l ok heq => ?_) hstep
      subst heq
      exact ha.keeps
  · refine (hw.nodes m c hc).shared fun hup name ts hts => ?_
    rcases Node.step_shared hstep with ⟨-, hstore⟩ | ⟨l, run, ts', written, rfl, -, -, -, -⟩ |
      ⟨r, written, request, -, -, rfl⟩
    · exact .inl (hstore ▸ hts)
    · rw [ha.current.1 m c hmn hc] at hup
      cases hup
    · simp only [Shared.markPending, if_true, lookup_markPending] at hts
      split at hts
      · cases hts
        exact .inr rfl
      · exact .inl hts

theorem TakeoverOk.step (hw : TakeoverOk db w) {a : WorldAct N V} (ha : w.Takes db a) (hstep : w.step a = some w') :
    TakeoverOk db w' := by
  have hreplay := hw.replay.step ha.assumed ha.plain ha.keeps hstep
  have hscheduled : ∀ n node, w'.nodes n = some node → Scheduled node := World.step_nodes hstep hw.scheduled
    (fun cfg instanceID _ loaded hnames => scheduled_start cfg instanceID hnames loaded) fun _ _ _ _ _ hs hnode => hs.step hnode
  cases World.steps_of_step hstep with
  | commit | foreign =>
    exact ⟨hreplay, hscheduled, hw.backed, hw.exclusive,
      fun n node hn => (hw.nodes n node hn).shared fun _ _ _ hts => .inl hts, hw.firsts⟩
  | @boot n cfg instanceID names loaded =>
    refine hw.setNode hreplay hscheduled fun node' hnode => ?_
    cases hnode
    exact startNode_idle cfg instanceID w.shared.store names loaded
  | crash => exact hw.setNode hreplay hscheduled fun node' hnode => by cases hnode
  | node hn hnode => exact hw.nodeStep htrans hn ha hnode hreplay hscheduled

end Order

/-- **Takeover**: where what is persisted does not go back under a run, the first
chunk a node selects of a table is not beyond the progress persisted when its
session came up, and a table that is done has delivered every row that has not
changed since its last replay. -/
theorem takeover_continues (db : Database V) (htrans : ∀ ref a b c, db.lt ref a b → db.lt ref b c → db.lt ref a c)
    (hrun : Reaches World.step (World.Takes db) {} w) :
    (∀ f ∈ w.shared.firsts, NotBeyond db f.table f.persisted f.cursor) ∧
      ∀ ref, ref.Plain → ∀ ts, w.shared.store.lookup ref.string = some ts → ts.done = true → ∀ key values,
        db.Unchanged w.shared.history.wal (w.shared.replayAt ref.string) ref key values →
          Delivered w.shared.history ref (w.shared.replayAt ref.string) { key, values } := by
  have hw : TakeoverOk db w := hrun.invariant (fun _ _ _ hw ha hstep => hw.step htrans ha hstep) (takeoverOk_start db)
  exact ⟨hw.firsts, fun ref hplain ts hts hdone key values hrow => hw.replay.delivered hplain hts hdone hrow⟩

end World

/-! ## A stale cursor -/

inductive Peer where
  | active
  | standby
deriving DecidableEq

/-- `users` with row 2 only. -/
def oneUser : Database ℕ := usersDatabase [secondUser] (by decide)

def bootPeer (n : Peer) (instanceID : String) (names : List String) : WorldAct Peer ℕ :=
  .boot n { slotName := "gtc", chunkSize := 1, lanes := 1 } instanceID names true

def inLane (n : Peer) (as : List (LaneAct ℕ)) : List (WorldAct Peer ℕ) := as.map fun a => .node n (.lane 0 a)

def selectOn (n : Peer) (snapshot : ℕ) (rows : List (Row ℕ)) : WorldAct Peer ℕ :=
  .node n (.lane 0 (.select (.ok (snapshot, { rows, lastCursor := (rows.getLast?.map fun row => [row.key]).getD [] }))))

/-- From the queue up to `waitForStream`. -/
def loadUsers : List (LaneAct ℕ) := [.pop, .primaryKey (.ok ["id"]), .load true, .loaded, .resume, .announce, .fill]

/-- `startChunk` up to the select. -/
def openChunk : List (LaneAct ℕ) := [.waitForStream, .register, .emit true none]

/-! ### The active node delivers row 2 -/

def activeBoots : List (WorldAct Peer ℕ) := [bootPeer .active "7f3a" []]

def activeUp : List (WorldAct Peer ℕ) :=
  activeBoots ++ .node .active (.stream (.up 0)) :: [.node .active (.request 0 .enqueueTable [users])]

def firstChunk : List (WorldAct Peer ℕ) :=
  activeUp ++ .node .active (.mark 0 true) :: (.node .active (.grant 0) :: inLane .active (loadUsers ++ openChunk))

def secondChunk : List (WorldAct Peer ℕ) :=
  firstChunk ++ selectOn .active 1 [secondUser] :: inLane .active ([.publish, .emit true none, .started, .fill] ++ openChunk)

def rowDelivered : List (WorldAct Peer ℕ) :=
  secondChunk ++ selectOn .active 3 [] :: (inLane .active [.publish, .started, .fill] ++
    List.replicate 3 (.node .active (.stream (.take "0/30" 0))) ++ [.node .active (.stream (.delivered 1))] ++
    inLane .active [.done, .record])

/-- The active node saves its cursor, and the standby boots and loads it. -/
def standbyWaits : List (WorldAct Peer ℕ) :=
  (rowDelivered ++ .node .active (.lane 0 (.save true)) :: []) ++
    bootPeer .standby "9c1e" ["public.users"] :: inLane .standby loadUsers

/-! ### The standby takes over -/

/-- The active node finishes, and crashes. -/
def activeEnds : List (WorldAct Peer ℕ) := standbyWaits ++ .node .active (.lane 0 .saved) :: inLane .active [.fill, .done, .record]

def activeCrashes : List (WorldAct Peer ℕ) := activeEnds ++ .node .active (.lane 0 (.save true)) :: [.crash .active]

def standbyUp : List (WorldAct Peer ℕ) := activeCrashes ++ .node .standby (.stream (.up 3)) :: inLane .standby openChunk

def standbyEnds : List (WorldAct Peer ℕ) :=
  standbyUp ++ selectOn .standby 4 [] :: inLane .standby [.publish, .started, .fill, .done, .record]

def tookOver : List (WorldAct Peer ℕ) := standbyEnds ++ .node .standby (.lane 0 (.save true)) :: []

/-! ### A replay while the standby waits -/

def insertFirst : CDCEvent ℕ := userEvent .insert none (some [("id", some 1)])

/-- Row 1 is inserted, the active node finishes, and a replay resets the table. -/
def replayed : List (WorldAct Peer ℕ) :=
  standbyWaits ++ .commit [insertFirst] :: (inLane .active [.saved, .fill, .done, .record, .save true, .saved, .leave, .returned] ++
    [.node .active (.request 1 .enqueueTable [users]), .node .active (.mark 1 true), .node .active (.grant 1),
      .node .active (.stream .down)])

def staleUp : List (WorldAct Peer ℕ) := replayed ++ .node .standby (.stream (.up 3)) :: inLane .standby openChunk

def staleDone : List (WorldAct Peer ℕ) :=
  staleUp ++ selectOn .standby 6 [] :: inLane .standby [.publish, .started, .fill, .done, .record, .save true]

/-! ### What the steps meet -/

/-- The steps of a lane that ask nothing of the state. -/
theorem inLane_takes (n : Peer) {as : List (LaneAct ℕ)} (has : ∀ a ∈ as, (∀ written, a ≠ .save written) ∧
      (∀ answer, a = .primaryKey answer → answer = .ok ["id"]) ∧ (∀ answer, a ≠ .select (.ok answer)) ∧ a ≠ .load false) :
    ∀ a ∈ inLane n as, ∀ w, World.Takes oneUser w a := by
  intro a ha w
  obtain ⟨b, hb, rfl⟩ := List.mem_map.mp ha
  obtain ⟨hsave, hkey, hselect, hload⟩ := has b hb
  cases b with
  | primaryKey answer =>
    obtain rfl := hkey answer rfl
    exact ⟨fun _ _ _ _ => rfl, trivial, trivial, trivial, trivial, trivial⟩
  | load ok =>
    cases ok with
    | false => exact absurd rfl hload
    | true => exact ⟨fun _ _ => trivial, trivial, trivial, trivial, rfl, trivial⟩
  | select answer =>
    cases answer with
    | error err => exact ⟨fun _ _ => trivial, trivial, trivial, trivial, trivial, trivial⟩
    | ok selection => exact absurd rfl (hselect selection)
  | save written => exact absurd rfl (hsave written)
  | _ => exact ⟨fun _ _ => trivial, trivial, trivial, trivial, trivial, trivial⟩

theorem request_takes (w : World Peer ℕ) (n : Peer) (r : ℕ) : w.Takes oneUser (.node n (.request r .enqueueTable [users])) := by
  refine ⟨fun _ _ => trivial, fun ref href => ?_, trivial, trivial, trivial, trivial⟩
  obtain rfl := List.mem_singleton.mp href
  exact users_plain

theorem select_takes {n : Peer} {w : World Peer ℕ} (low : ℕ) (cursor : List String) {snapshot : ℕ} {rows : List (Row ℕ)}
    (hchunk : startingChunk n w = some (some low, users, cursor, 1)) (hlow : low < snapshot)
    (hboundary : Database.Boundary w.shared.history.wal snapshot)
    (hrows : oneUser.FirstRows (oneUser.source (w.shared.history.wal.take snapshot)) users cursor 1
      { rows, lastCursor := (rows.getLast?.map fun row => [row.key]).getD [] }) : w.Takes oneUser (selectOn n snapshot rows) :=
  ⟨select_assumed low users cursor 1 hchunk hlow hboundary hrows, trivial, trivial, trivial, trivial, trivial⟩

/-- Whether a node streams. -/
def streams (n : Peer) (w : World Peer ℕ) : Option Bool := (w.nodes n).map fun node => node.coordinator.streaming

theorem alone_of_streams {n m : Peer} {w : World Peer ℕ} (hm : ∀ k, k ≠ n → k = m) (hoff : streams m w ≠ some true) :
    w.Alone n := by
  intro k node hk hnode
  obtain rfl := hm k hk
  simpa [streams, hnode] using hoff

theorem eq_standby (k : Peer) (hk : k ≠ .active) : k = .standby := by
  cases k with
  | active => exact absurd rfl hk
  | standby => rfl

theorem eq_active (k : Peer) (hk : k ≠ .standby) : k = .active := by
  cases k with
  | active => rfl
  | standby => exact absurd rfl hk

/-- How many lanes a node has, and where the first one is. -/
def firstLane (n : Peer) (w : World Peer ℕ) : Option (ℕ × Lane) :=
  (w.nodes n).map fun node => (node.coordinator.cfg.lanes, node.lanes 0)

/-- The run of a node with one lane. -/
theorem eq_firstLane {as : List (WorldAct Peer ℕ)} {w : World Peer ℕ} (hw : runSteps World.step {} as = some w) {n : Peer}
    {lane : Lane} (hfirst : firstLane n w = some (1, lane)) {node : Node ℕ} (hn : w.nodes n = some node) {l : ℕ} {run : Run}
    (hrun : node.lanes l = .running run) : lane = .running run := by
  simp only [firstLane, hn, Option.map_some, Option.some.injEq, Prod.mk.injEq] at hfirst
  obtain ⟨hlanes, rfl⟩ := hfirst
  cases l with
  | zero => exact hrun
  | succ l =>
    rw [(World.wakes (reaches_of_runSteps hw) hn).beyond (l + 1) (by omega)] at hrun
    cases hrun

/-- What a node is about to save, and what is persisted. -/
def saving (n : Peer) (w : World Peer ℕ) : Option (TableRef × TableState × Option TableState) := do
  let node ← w.nodes n
  match node.lanes 0 with
  | .running run =>
    match run.point with
    | .save ts => some (run.ref, ts, w.shared.store.lookup run.ref.string)
    | _ => none
  | _ => none

theorem save_takes {n : Peer} {w : World Peer ℕ} (halone : w.Alone n) {ts old : TableState}
    (hsaving : saving n w = some (users, ts, some old)) (honward : Onward oneUser users old ts) :
    w.Takes oneUser (.node n (.lane 0 (.save true))) := by
  refine ⟨fun _ _ => trivial, trivial, trivial, rfl, trivial, halone, fun node run ts' old' hn hrun hpoint hold => .inl ?_⟩
  simp only [saving, hn, hrun, hpoint, hold, Option.bind_eq_bind, Option.bind_some, Option.some.injEq, Prod.mk.injEq] at hsaving
  obtain ⟨href, rfl, rfl⟩ := hsaving
  exact href ▸ honward

/-! ### The common part -/

theorem firstChunk_reaches : ∀ w, runSteps World.step {} firstChunk = some w → Reaches World.step (World.Takes oneUser) {} w := by
  have hboots : ∀ w, runSteps World.step {} activeBoots = some w → Reaches World.step (World.Takes oneUser) {} w := by
    intro w hw
    obtain ⟨u, hboot, hend⟩ := runSteps_cons_eq_some hw
    cases hend
    have htakes : World.Takes oneUser {} (bootPeer .active "7f3a" []) := by
      refine ⟨⟨by decide, fun _ _ hn => ?_, fun _ _ hq => ?_⟩, trivial, trivial, trivial, trivial, trivial⟩
      · cases hn
      · cases hq
    exact .tail .refl htakes hboot
  have hup : ∀ w, runSteps World.step {} activeUp = some w → Reaches World.step (World.Takes oneUser) {} w := by
    refine reaches_extend hboots (fun u hu => ?_) fun b hb w => ?_
    · have hoff : streams .standby u = none := runSteps_observe hu (by decide +kernel)
      have hlane : firstLane .active u = some (1, .ready) := runSteps_observe hu (by decide +kernel)
      refine ⟨fun _ _ => trivial, trivial, alone_of_streams eq_standby (by simp [hoff]), trivial, trivial,
        fun node hn l run hrun => ?_⟩
      cases eq_firstLane hu hlane hn hrun
    · obtain rfl := List.mem_singleton.mp hb
      exact request_takes w .active 0
  refine reaches_extend hup (fun u hu => ?_) fun b hb w => ?_
  · have hlane : firstLane .active u = some (1, .ready) := runSteps_observe hu (by decide +kernel)
    have hnone : (u.nodes .standby).isNone = true :=
      runSteps_observe (f := fun w => (w.nodes .standby).isNone) hu (by decide +kernel)
    refine ⟨fun _ _ => trivial, trivial, trivial, rfl, fun _ _ _ _ m node l run hm hrun => ?_, trivial⟩
    cases m with
    | active => cases eq_firstLane hu hlane hm hrun
    | standby => simp [hm] at hnone
  · rcases List.mem_cons.mp hb with rfl | hb
    · exact ⟨fun _ _ => trivial, trivial, trivial, trivial, trivial, trivial⟩
    · exact inLane_takes .active (by simp [loadUsers, openChunk]) b hb w

theorem secondChunk_reaches : ∀ w, runSteps World.step {} secondChunk = some w →
    Reaches World.step (World.Takes oneUser) {} w := by
  refine reaches_extend firstChunk_reaches (fun u hu => ?_) (inLane_takes .active (by simp [openChunk]))
  have hwal : u.shared.history.wal = [.mark (some ⟨"gtc", "7f3a-public.users-1", "low"⟩)] :=
    runSteps_observe (f := fun w => w.shared.history.wal) hu (by decide +kernel)
  refine select_takes 0 [] (runSteps_observe hu (by decide +kernel)) (by decide)
    ⟨by simp [hwal], by simp [hwal]⟩ ?_
  have hsource : oneUser.source (u.shared.history.wal.take 1) = usersRows [secondUser] := by
    rw [hwal]
    rfl
  rw [hsource]
  exact usersRows_select (fun _ => rfl) (fun _ _ => .rfl) (by decide) (by decide) (by decide)

/-- No row of `users` is after row 2. -/
theorem select_past_second {rows : List (Row ℕ)} (hrows : ∀ row ∈ rows, ¬ ["2"] < [row.key]) :
    oneUser.FirstRows (usersRows rows) users ["2"] 1 { rows := [], lastCursor := [] } := by
  refine Database.firstRows_nil 1 fun key values hrow hafter => ?_
  rcases hafter with hnil | hlt
  · cases hnil
  · exact hrows _ (usersRows_eq_some hrow).2 hlt

theorem rowDelivered_reaches : ∀ w, runSteps World.step {} rowDelivered = some w →
    Reaches World.step (World.Takes oneUser) {} w := by
  refine reaches_extend secondChunk_reaches (fun u hu => ?_) fun b hb w => ?_
  · have hwal : u.shared.history.wal = [.mark (some ⟨"gtc", "7f3a-public.users-1", "low"⟩),
        .mark (some ⟨"gtc", "7f3a-public.users-1", "high"⟩), .mark (some ⟨"gtc", "7f3a-public.users-2", "low"⟩)] :=
      runSteps_observe (f := fun w => w.shared.history.wal) hu (by decide +kernel)
    refine select_takes 2 ["2"] (runSteps_observe hu (by decide +kernel)) (by decide)
      ⟨by simp [hwal], by simp [hwal]⟩ ?_
    have hsource : oneUser.source (u.shared.history.wal.take 3) = usersRows [secondUser] := by
      rw [hwal]
      rfl
    rw [hsource]
    exact select_past_second (by decide)
  · simp only [List.mem_append, List.mem_replicate, List.mem_singleton] at hb
    rcases hb with ((hb | ⟨-, rfl⟩) | rfl) | hb
    · exact inLane_takes .active (by simp) b hb w
    · exact ⟨fun _ _ => trivial, trivial, trivial, trivial, trivial, trivial⟩
    · exact ⟨fun _ _ => trivial, trivial, trivial, trivial, trivial, trivial⟩
    · exact inLane_takes .active (by simp) b hb w

theorem standbyWaits_reaches : ∀ w, runSteps World.step {} standbyWaits = some w →
    Reaches World.step (World.Takes oneUser) {} w := by
  refine reaches_extend (reaches_extend rowDelivered_reaches (fun u hu => ?_) fun _ hb => by cases hb) (fun u hu => ?_)
    (inLane_takes .standby (by simp [loadUsers]))
  · have hoff : streams .standby u = none := runSteps_observe hu (by decide +kernel)
    have hsaving : saving .active u = some (users, ⟨["2"], false, 1, some ⟨0, 1⟩⟩, some {}) :=
      runSteps_observe hu (by decide +kernel)
    exact save_takes (alone_of_streams eq_standby (by simp [hoff])) hsaving ⟨.inl rfl, fun h => by cases h⟩
  have hseen : ((u.nodes .active).map (fun node => node.coordinator.instanceID), (u.nodes .standby).isNone) =
      (some "7f3a", true) :=
    runSteps_observe (f := fun w => ((w.nodes .active).map fun node => node.coordinator.instanceID,
      (w.nodes .standby).isNone)) hu (by decide +kernel)
  have hwal : u.shared.history.wal = [.mark (some ⟨"gtc", "7f3a-public.users-1", "low"⟩),
      .mark (some ⟨"gtc", "7f3a-public.users-1", "high"⟩), .mark (some ⟨"gtc", "7f3a-public.users-2", "low"⟩)] :=
    runSteps_observe (f := fun w => w.shared.history.wal) hu (by decide +kernel)
  simp only [Prod.mk.injEq] at hseen
  obtain ⟨hactive, hstandby⟩ := hseen
  -- the second node's instance id is not in the log, and not the first one's
  refine ⟨⟨by decide, fun n node hn => ?_, fun q payload hitem ref i hid => ?_⟩, trivial, trivial, trivial, trivial, trivial⟩
  · cases n with
    | active =>
      simp only [hn, Option.map_some, Option.some.injEq] at hactive
      rw [hactive]
      decide
    | standby => simp [hn] at hstandby
  · have hchunk : payload.chunk = chunkID "7f3a" users 1 ∨ payload.chunk = chunkID "7f3a" users 2 := by
      have hmem := List.mem_of_getElem? hitem
      rw [hwal] at hmem
      simp only [List.mem_cons, Item.mark.injEq, Option.some.injEq, List.not_mem_nil, or_false] at hmem
      rcases hmem with rfl | rfl | rfl <;> decide
    have hinst : ∀ j, chunkID "7f3a" users j ≠ chunkID "9c1e" ref i := fun j heq =>
      absurd (chunkID_instance_inj (by decide) (by decide) heq) (by decide)
    rcases hchunk with hchunk | hchunk
    · exact hinst 1 (hchunk.symm.trans hid)
    · exact hinst 2 (hchunk.symm.trans hid)

/-! ### The two runs -/

/-- A table that is done stays done. -/
theorem onward_done {old new : TableState} (hdone : new.done = true) : Onward oneUser users old new :=
  ⟨.inr ⟨new, rfl, .inl hdone⟩, fun _ => hdone⟩

theorem tookOver_reaches : ∀ w, runSteps World.step {} tookOver = some w → Reaches World.step (World.Takes oneUser) {} w := by
  have hends : ∀ w, runSteps World.step {} activeEnds = some w → Reaches World.step (World.Takes oneUser) {} w :=
    reaches_extend standbyWaits_reaches (fun _ _ => ⟨fun _ _ => trivial, trivial, trivial, trivial, trivial, trivial⟩)
      (inLane_takes .active (by simp))
  have hcrashes : ∀ w, runSteps World.step {} activeCrashes = some w → Reaches World.step (World.Takes oneUser) {} w := by
    refine reaches_extend hends (fun u hu => ?_) fun b hb w => ?_
    · have hoff : streams .standby u = some false := runSteps_observe hu (by decide +kernel)
      have hsaving : saving .active u = some (users, ⟨[], true, 1, some ⟨0, 1⟩⟩, some ⟨["2"], false, 1, some ⟨0, 1⟩⟩) :=
        runSteps_observe hu (by decide +kernel)
      exact save_takes (alone_of_streams eq_standby (by simp [hoff])) hsaving (onward_done rfl)
    · obtain rfl := List.mem_singleton.mp hb
      exact ⟨trivial, trivial, trivial, trivial, trivial, trivial⟩
  have hup : ∀ w, runSteps World.step {} standbyUp = some w → Reaches World.step (World.Takes oneUser) {} w := by
    refine reaches_extend hcrashes (fun u hu => ?_) (inLane_takes .standby (by simp [openChunk]))
    have hoff : streams .active u = none := runSteps_observe hu (by decide +kernel)
    have hlane : firstLane .standby u =
        some (1, .running ⟨users, .waitForStream, ["id"], ["2"], ["2"], 1, [], false, some ⟨0, 1⟩⟩) :=
      runSteps_observe hu (by decide +kernel)
    refine ⟨fun _ _ => trivial, trivial, alone_of_streams eq_active (by simp [hoff]), trivial, trivial,
      fun node hn l run hrun _ => ?_⟩
    cases eq_firstLane hu hlane hn hrun
    exact ⟨rfl, fun _ => ⟨rfl, rfl, rfl⟩⟩
  have hdone : ∀ w, runSteps World.step {} standbyEnds = some w → Reaches World.step (World.Takes oneUser) {} w := by
    refine reaches_extend hup (fun u hu => ?_) (inLane_takes .standby (by simp))
    have hwal : u.shared.history.wal = [.mark (some ⟨"gtc", "7f3a-public.users-1", "low"⟩),
        .mark (some ⟨"gtc", "7f3a-public.users-1", "high"⟩), .mark (some ⟨"gtc", "7f3a-public.users-2", "low"⟩),
        .mark (some ⟨"gtc", "9c1e-public.users-1", "low"⟩)] :=
      runSteps_observe (f := fun w => w.shared.history.wal) hu (by decide +kernel)
    refine select_takes 3 ["2"] (runSteps_observe hu (by decide +kernel)) (by decide)
      ⟨by simp [hwal], by simp [hwal]⟩ ?_
    have hsource : oneUser.source (u.shared.history.wal.take 4) = usersRows [secondUser] := by
      rw [hwal]
      rfl
    rw [hsource]
    exact select_past_second (by decide)
  refine reaches_extend hdone (fun u hu => ?_) fun _ hb => by cases hb
  have hoff : streams .active u = none := runSteps_observe hu (by decide +kernel)
  have hsaving : saving .standby u = some (users, ⟨[], true, 1, some ⟨0, 1⟩⟩, some ⟨[], true, 1, some ⟨0, 1⟩⟩) :=
    runSteps_observe hu (by decide +kernel)
  exact save_takes (alone_of_streams eq_active (by simp [hoff])) hsaving (onward_done rfl)

/-- The standby goes on from row 2, which it loaded before the first node was
done. -/
theorem takeover_continues_users : ∃ w : World Peer ℕ, Reaches World.step (World.Takes oneUser) {} w ∧
    (∃ ts, ts.done = true ∧ (⟨users, ["2"], some ts⟩ : FirstSelect) ∈ w.shared.firsts ∧
      NotBeyond oneUser users (some ts) ["2"]) ∧
    Delivered w.shared.history users 0 secondUser := by
  obtain ⟨w, hw, hseen⟩ : ∃ w, runSteps World.step {} tookOver = some w ∧
      (w.shared.firsts, w.shared.store.lookup users.string, w.shared.replayAt users.string,
        changes (w.shared.history.wal.drop 0)) =
      ([⟨users, [], none⟩, ⟨users, ["2"], some ⟨[], true, 1, some ⟨0, 1⟩⟩⟩], some ⟨[], true, 1, some ⟨0, 1⟩⟩, 0, []) :=
    Option.map_eq_some_iff.mp (by decide +kernel)
  simp only [Prod.mk.injEq] at hseen
  obtain ⟨hlist, hstore, hreplay, hchanges⟩ := hseen
  have hrun := tookOver_reaches w hw
  obtain ⟨hfirsts, hdelivered⟩ := takeover_continues oneUser (fun _ _ _ _ => List.lt_trans) hrun
  have hfirst : (⟨users, ["2"], some ⟨[], true, 1, some ⟨0, 1⟩⟩⟩ : FirstSelect) ∈ w.shared.firsts := by
    simp [hlist]
  refine ⟨w, hrun, ⟨_, rfl, hfirst, hfirsts _ hfirst⟩, ?_⟩
  have hread := hdelivered users users_plain _ hstore rfl "2" secondUser.values
  rw [hreplay] at hread
  refine hread ⟨rfl, fun event hevent => ?_⟩
  rw [hchanges] at hevent
  cases hevent

/-- What is assumed of the nodes: at most one streams, and nothing they persist
is lost. -/
def Claimed (w : World Peer ℕ) (a : WorldAct Peer ℕ) : Prop := w.Assumed oneUser a ∧ a.Plain ∧ w.Exclusive a ∧ a.Persists

theorem World.Takes.claimed {w : World Peer ℕ} {a : WorldAct Peer ℕ} (h : w.Takes oneUser a) : Claimed w a :=
  ⟨h.assumed, h.plain, h.exclusive, h.persists⟩

theorem save_claimed (w : World Peer ℕ) (n : Peer) : Claimed w (.node n (.lane 0 (.save true))) :=
  ⟨fun _ _ => trivial, trivial, trivial, rfl⟩

theorem replayed_reaches : ∀ w, runSteps World.step {} replayed = some w → Reaches World.step Claimed {} w := by
  refine reaches_extend (fun w hw => (standbyWaits_reaches w hw).mono fun _ _ h => h.claimed) (fun u _ =>
    ⟨trivial, trivial, trivial, trivial⟩) fun b hb w => ?_
  rcases List.mem_append.mp hb with hb | hb
  · by_cases hsave : b = WorldAct.node .active (.lane 0 (.save true))
    · rw [hsave]
      exact save_claimed w .active
    · have hrest : b ∈ inLane .active [.saved, .fill, .done, .record, .saved, .leave, .returned] := by
        simp_all [inLane]
      exact (inLane_takes .active (by simp) b hrest w).claimed
  · simp only [List.mem_cons, List.not_mem_nil, or_false] at hb
    rcases hb with rfl | rfl | rfl | rfl
    · exact (request_takes w .active 1).claimed
    · exact ⟨fun _ _ => trivial, trivial, trivial, rfl⟩
    · exact ⟨fun _ _ => trivial, trivial, trivial, trivial⟩
    · exact ⟨fun _ _ => trivial, trivial, trivial, trivial⟩

theorem apply_insertFirst : applyChange oneUser.primaryKey insertFirst oneUser.rows = usersRows [firstUser, secondUser] := by
  funext row
  obtain ⟨ref, key⟩ := row
  have href : eventRef insertFirst = users := rfl
  have hnew : rowKey ["id"] insertFirst.newData = some "1" := by decide
  simp only [applyChange, href, oneUser, usersDatabase, hnew]
  by_cases hne : users = ref
  · subst hne
    by_cases hkey : key = "1"
    · subst hkey
      rfl
    · have hkey' : ¬ "1" = key := fun h => hkey h.symm
      simp [insertFirst, userEvent, usersRows, firstUser, hkey']
  · simp [hne, usersRows, Ne.symm hne]

theorem staleDone_reaches : ∀ w, runSteps World.step {} staleDone = some w → Reaches World.step Claimed {} w := by
  have hup : ∀ w, runSteps World.step {} staleUp = some w → Reaches World.step Claimed {} w := by
    refine reaches_extend replayed_reaches (fun u hu => ?_) fun b hb w =>
      (inLane_takes .standby (by simp [openChunk]) b hb w).claimed
    have hoff : streams .active u = some false := runSteps_observe hu (by decide +kernel)
    exact ⟨fun _ _ => trivial, trivial, alone_of_streams eq_active (by simp [hoff]), trivial⟩
  refine reaches_extend hup (fun u hu => ?_) fun b hb w => ?_
  · have hseen : (changes (u.shared.history.wal.take 6), u.shared.history.wal.length, u.shared.history.wal.getLast?) =
        ([insertFirst], 6, some (.mark (some ⟨"gtc", "9c1e-public.users-1", "low"⟩))) :=
      runSteps_observe (f := fun w => (changes (w.shared.history.wal.take 6), w.shared.history.wal.length,
        w.shared.history.wal.getLast?)) hu (by decide +kernel)
    simp only [Prod.mk.injEq] at hseen
    obtain ⟨hchanges, hlength, hlast⟩ := hseen
    refine (select_takes 5 ["2"] (runSteps_observe hu (by decide +kernel)) (by decide)
      ⟨by rw [hlength], fun event => ?_⟩ ?_).claimed
    · rw [List.take_of_length_le (by rw [hlength]), hlast]
      simp
    · rw [Database.source, hchanges]
      show oneUser.FirstRows (applyChange oneUser.primaryKey insertFirst oneUser.rows) users ["2"] 1 _
      rw [apply_insertFirst]
      exact select_past_second (by decide)
  · by_cases hsave : b = WorldAct.node .standby (.lane 0 (.save true))
    · rw [hsave]
      exact save_claimed w .standby
    · have hrest : b ∈ inLane .standby [.publish, .started, .fill, .done, .record] := by
        simp_all [inLane]
      exact (inLane_takes .standby (by simp) b hrest w).claimed

/-- **A stale cursor**: the standby loaded the cursor before the replay, and goes
on from it after the takeover. The table is done, and no READ of row 1 was ever
delivered. -/
theorem stale_cursor_survives_replay : ∃ w : World Peer ℕ, Reaches World.step Claimed {} w ∧
    (∃ f ∈ w.shared.firsts, ¬ NotBeyond oneUser f.table f.persisted f.cursor) ∧
    ∃ ts, w.shared.store.lookup users.string = some ts ∧ ts.done = true ∧
      oneUser.Unchanged w.shared.history.wal (w.shared.replayAt users.string) users "1" firstUser.values ∧
      ¬ Delivered w.shared.history users 0 firstUser := by
  obtain ⟨w, hw, hseen⟩ : ∃ w, runSteps World.step {} staleDone = some w ∧
      (w.shared.firsts, w.shared.store.lookup users.string, w.shared.replayAt users.string,
        changes (w.shared.history.wal.drop 5)) =
      ([⟨users, [], none⟩, ⟨users, ["2"], some {}⟩], some ⟨[], true, 1, some ⟨0, 1⟩⟩, 5, []) :=
    Option.map_eq_some_iff.mp (by decide +kernel)
  simp only [Prod.mk.injEq] at hseen
  obtain ⟨hlist, hstore, hreplay, hafter⟩ := hseen
  have hbefore : changes (w.shared.history.wal.take 5) = [insertFirst] :=
    runSteps_observe (f := fun w => changes (w.shared.history.wal.take 5)) hw (by decide +kernel)
  have hreports : w.shared.history.reports.map (·.read) = [[readEvent "0/30" 0 "7f3a-public.users-1" users secondUser]] :=
    runSteps_observe (f := fun w => w.shared.history.reports.map (·.read)) hw (by decide +kernel)
  refine ⟨w, staleDone_reaches w hw, ⟨⟨users, ["2"], some {}⟩, by simp [hlist], ?_⟩, _, hstore, rfl, ?_, ?_⟩
  · rintro (hnil | ⟨ts, hts, hdone | ⟨hcursor, -⟩⟩)
    · cases hnil
    · cases hts
      cases hdone
    · cases hts
      exact hcursor rfl
  · rw [hreplay]
    refine ⟨?_, fun event hevent => ?_⟩
    · rw [Database.source, hbefore]
      show applyChange oneUser.primaryKey insertFirst oneUser.rows (users, "1") = _
      rw [apply_insertFirst]
      rfl
    · rw [hafter] at hevent
      cases hevent
  · rintro ⟨r, hr, -, -, event, hevent, lsn, now, id, hread⟩
    have hmem := List.mem_map_of_mem (f := (·.read)) hr
    rw [hreports] at hmem
    rw [List.mem_singleton.mp hmem] at hevent
    obtain rfl := List.mem_singleton.mp hevent
    exact absurd (congrArg CDCEvent.newData hread) (by simp [readEvent, secondUser, firstUser])

end Gtc.Backfill
