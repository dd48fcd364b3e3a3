/-
The status a node shows for a table, and the runs that write it.

A run shows its table as running once it knows where to go on from, and a run
that failed shows it as failed. The latter is a critical section of its own,
after the one that takes the table out of `running`: in between the table can
be asked for again, and another lane can take it and show it as running.
`Watched` remembers the last run that took a table, and what it has shown.
-/
import Gtc.Backfill.Schedule

namespace Gtc.Backfill

open Lib

variable {V : Type}

/-! ## What is shown -/

namespace Coordinator

def shown (c : Coordinator V) (name : String) : Option BackfillState := (c.status.lookup name).bind (·.state)

/-- No table is shown as failed that was not. -/
def KeepsUnfailed (c c' : Coordinator V) : Prop := ∀ name, c'.shown name = some .failed → c.shown name = some .failed

theorem KeepsUnfailed.of_status {c c' : Coordinator V} (h : c'.status = c.status) : KeepsUnfailed c c' := by
  intro name hname
  rwa [shown, h] at hname

theorem KeepsUnfailed.trans {c c' c'' : Coordinator V} (h : KeepsUnfailed c c') (h' : KeepsUnfailed c' c'') :
    KeepsUnfailed c c'' := fun name hname => h name (h' name hname)

theorem shown_setStatus_self (c : Coordinator V) (ref : TableRef) (update : BackfillTableStatus → BackfillTableStatus) :
    (c.setStatus ref update).shown ref.string =
      (update ((c.status.lookup ref.string).getD { schema := ref.schema, table := ref.table })).state := by
  simp [shown, setStatus]

theorem shown_setStatus_ne (c : Coordinator V) {ref : TableRef} {name : String} (hname : name ≠ ref.string)
    (update : BackfillTableStatus → BackfillTableStatus) : (c.setStatus ref update).shown name = c.shown name := by
  simp [shown, setStatus, AList.lookup_insert_ne hname]

theorem setStatus_keepsUnfailed (c : Coordinator V) (ref : TableRef) {update : BackfillTableStatus → BackfillTableStatus}
    (hupdate : ∀ s, (update s).state = some .failed → s.state = some .failed) : KeepsUnfailed c (c.setStatus ref update) := by
  intro name hname
  by_cases heq : name = ref.string
  · subst heq
    rw [shown_setStatus_self] at hname
    have hbefore := hupdate _ hname
    cases hs : c.status.lookup ref.string with
    | none => simp [hs] at hbefore
    | some s => simpa [shown, hs] using hbefore
  · rwa [shown_setStatus_ne c heq] at hname

theorem enqueueLocked_keepsUnfailed (c : Coordinator V) (ref : TableRef) : KeepsUnfailed c (c.enqueueLocked ref) := by
  intro name hname
  simp only [enqueueLocked, signal, shown] at hname
  split at hname
  · exact hname
  · by_cases heq : name = ref.string
    · subst heq
      simp at hname
    · simpa [shown, AList.lookup_insert_ne heq] using hname

theorem grantTable_keepsUnfailed (kind : RequestKind) (c : Coordinator V) (ref : TableRef) :
    KeepsUnfailed c (grantTable kind c ref) := by
  unfold grantTable
  split
  · exact .of_status rfl
  · split
    · exact c.enqueueLocked_keepsUnfailed ref
    · exact .trans (.of_status rfl) ((c.forget ref.string).enqueueLocked_keepsUnfailed ref)

theorem grant_keepsUnfailed (kind : RequestKind) (tables : List TableRef) (c : Coordinator V) :
    KeepsUnfailed c (tables.foldl (grantTable kind) c) := by
  induction tables generalizing c with
  | nil => exact .of_status rfl
  | cons ref tables ih => exact (grantTable_keepsUnfailed kind c ref).trans (ih _)

end Coordinator

/-! ## What a step does to it -/

/-- The status the lane's run writes. -/
def Lane.row? : Lane → Option String
  | .running run => some run.ref.string
  | _ => none

/-- What a run comes to: it takes its table, shows it as running, shows it as
failed. -/
inductive Milestone where
  | taken
  | announced
  | failed

/-- The lane, the table and the milestone of a step. -/
def Node.milestone (node : Node V) : NodeAct V → Option (ℕ × String × Milestone)
  | .lane l .pop =>
    match node.lanes l, node.coordinator.queue with
    | .ready, ref :: _ => some (l, ref.string, .taken)
    | _, _ => none
  | .lane l .announce => (node.lanes l).row?.map fun name => (l, name, .announced)
  | .lane l .failed => if node.canceled then none else (node.lanes l).row?.map fun name => (l, name, .failed)
  | _ => none

section Steps

variable [ToString V] {w w' : Shared V} {node node' : Node V} {l : ℕ}

omit [ToString V] in
theorem Node.coordinator_keep_setLane (c : Coordinator V) (lane : Lane) : ((node.keep c).setLane l lane).coordinator = c := rfl

theorem Node.RunSteps.failed_shown {run : Run} {a : LaneAct V} (hstep : Node.RunSteps w node l run a w' node') {name : String}
    (hname : node'.coordinator.shown name = some .failed) : node.coordinator.shown name = some .failed ∨
      a = .failed ∧ node.canceled = false ∧ name = run.ref.string := by
  have hkeeps : node.coordinator.KeepsUnfailed node'.coordinator → node.coordinator.shown name = some .failed ∨
      a = .failed ∧ node.canceled = false ∧ name = run.ref.string := fun h => .inl (h name hname)
  have hset : ∀ {update : BackfillTableStatus → BackfillTableStatus} {lane : Lane},
      (∀ s, (update s).state = some .failed → s.state = some .failed) → node.coordinator.KeepsUnfailed
        ((node.keep (node.coordinator.setStatus run.ref update)).setLane l lane).coordinator :=
    fun hupdate => node.coordinator.setStatus_keepsUnfailed run.ref hupdate
  cases hstep with
  | failed _ hcanceled =>
    by_cases heq : name = run.ref.string
    · exact .inr ⟨rfl, hcanceled, heq⟩
    · rw [Node.coordinator_keep_setLane, Coordinator.shown_setStatus_ne _ heq] at hname
      exact .inl hname
  | skip | already | announce | completed => exact hkeeps (hset fun s hs => by cases hs)
  | progressed => exact hkeeps (hset fun s hs => hs)
  | register _ hstep | emitFailed _ _ hstep | selectFailed _ hstep | fail _ hstep | restart _ _ _ hstep | leave _ hstep
  | emitted _ _ hstep | publish _ hstep => exact hkeeps (.of_status (Process.step_tables hstep).status)
  | selected _ hstep hnote =>
    refine hkeeps (.of_status ?_)
    obtain ⟨firsts, selected, -, rfl, rfl⟩ := Node.noteSelect_eq hnote
    exact (Process.step_tables hstep).status
  | _ => exact hkeeps (.of_status rfl)

/-- Only a run that has failed shows its table as failed. -/
theorem Node.step_failed_shown {a : NodeAct V} (hstep : node.step w a = some (w', node')) {name : String}
    (hname : node'.coordinator.shown name = some .failed) : node.coordinator.shown name = some .failed ∨
      ∃ l, node.milestone a = some (l, name, .failed) := by
  cases Node.steps_of_step hstep with
  | stream hcall => exact .inl (Coordinator.KeepsUnfailed.of_status (Process.step_tables hcall).status name hname)
  | @run l run _ _ _ hrun hstep =>
    rcases hstep.failed_shown hname with hbefore | ⟨rfl, hcanceled, rfl⟩
    · exact .inl hbefore
    · exact .inr ⟨l, by simp [Node.milestone, hcanceled, hrun, Lane.row?]⟩
  | grant => exact .inl (Coordinator.grant_keepsUnfailed _ _ _ name hname)
  | _ => exact .inl hname

/-- A lane comes to write a table's status by popping the table. -/
theorem Node.step_row? {a : NodeAct V} (hstep : node.step w a = some (w', node')) {j : ℕ} {name : String}
    (hname : (node'.lanes j).row? = some name) : (node.lanes j).row? = some name ∨
      node.milestone a = some (j, name, .taken) := by
  by_cases hmoves : a.moves j
  · cases Node.steps_of_step hstep with
    | run hrun hstep =>
      obtain rfl : j = _ := hmoves
      cases hlane : node'.lanes j with
      | running run' =>
        rw [hlane, Lane.row?, hstep.ref hrun hlane] at hname
        exact .inl (by rw [hrun]; exact hname)
      | _ =>
        rw [hlane] at hname
        cases hname
    | pop hlane hqueue =>
      obtain rfl : j = _ := hmoves
      simp only [Node.setRun, Node.setLane, Function.update_self, Lane.row?, Option.some.injEq] at hname
      exact .inr (by simp [Node.milestone, hlane, hqueue, hname])
    | sleep | wake | stopped =>
      obtain rfl : j = _ := hmoves
      simp [Node.setLane, Lane.row?] at hname
    | _ => exact hmoves.elim
  · rw [Node.step_lanes hstep hmoves] at hname
    exact .inl hname

omit [ToString V] in
/-- A run that comes to show its table has taken it before. -/
theorem Node.milestone_row? {a : NodeAct V} {name : String} {m : Milestone} (h : node.milestone a = some (l, name, m))
    (hm : m ≠ .taken) : (node.lanes l).row? = some name ∧ (m = .announced → a = .lane l .announce) := by
  unfold Node.milestone at h
  split at h
  · split at h <;> cases h
    exact absurd rfl hm
  · obtain ⟨_, hrow, heq⟩ := Option.map_eq_some_iff.mp h
    cases heq
    exact ⟨hrow, fun _ => rfl⟩
  · split at h
    · cases h
    · obtain ⟨_, hrow, heq⟩ := Option.map_eq_some_iff.mp h
      cases heq
      exact ⟨hrow, fun heq => by cases heq⟩
  · cases h

theorem Node.step_announce (hstep : node.step w (.lane l .announce) = some (w', node')) :
    ∃ run, node.lanes l = .running run ∧ run.point = .announce ∧ node'.coordinator.shown run.ref.string = some .running := by
  cases Node.steps_of_step hstep with
  | @run _ run _ _ _ hrun hstep =>
    cases hstep with
    | announce hpoint =>
      refine ⟨run, hrun, hpoint, ?_⟩
      rw [Node.setRun, Node.coordinator_keep_setLane, Coordinator.shown_setStatus_self]

end Steps

/-! ## The last run of a table -/

/-- The last run to have taken a table. -/
structure LastRun where
  lane : ℕ
  announced : Bool := false
  failed : Bool := false
deriving DecidableEq, Repr

/-- A table's last runs by its name. A run that another has followed is not
looked at any more. -/
def follow (last : String → Option LastRun) : Option (ℕ × String × Milestone) → String → Option LastRun
  | none => last
  | some (l, name, .taken) => Function.update last name (some { lane := l })
  | some (l, name, .announced) =>
    Function.update last name ((last name).map fun r => if r.lane = l then { r with announced := true } else r)
  | some (l, name, .failed) =>
    Function.update last name ((last name).map fun r => if r.lane = l then { r with failed := true } else r)

/-- The nodes, with the last run of each table on each node. -/
structure Watched (N V : Type) where
  world : World N V := {}
  last : N → String → Option LastRun := fun _ _ => none

namespace Watched

variable {N : Type} [DecidableEq N]

def watch (s : Watched N V) : WorldAct N V → N → String → Option LastRun
  | .node n a => Function.update s.last n (follow (s.last n) ((s.world.nodes n).bind fun node => node.milestone a))
  | .boot n _ _ _ _ => Function.update s.last n fun _ => none
  | _ => s.last

def step [ToString V] (s : Watched N V) (a : WorldAct N V) : Option (Watched N V) :=
  (s.world.step a).map fun world => { world, last := s.watch a }

variable [ToString V]

/-- Watching does not change what the nodes do. -/
theorem reaches_world {ok : Watched N V → WorldAct N V → Prop} {s s' : Watched N V} (h : Reaches step ok s s') :
    Reaches World.step (fun _ _ => True) s.world s'.world := by
  induction h with
  | refl => exact .refl
  | tail _ _ hstep ih =>
    obtain ⟨world, hworld, rfl⟩ := Option.map_eq_some_iff.mp hstep
    exact ih.tail trivial hworld

end Watched

/-! ## Runs that are overtaken -/

/-- Another lane still has to write the status the run writes: it has taken the
same table out of `running`, or runs another table of that name. -/
def Node.Overtakes (node : Node V) (l : ℕ) (run : Run) : Prop :=
  ∃ j run', j ≠ l ∧ node.lanes j = .running run' ∧ run'.ref.string = run.ref.string ∧
    (run'.ref = run.ref → run'.point.over = true)

/-- No run shows its table as running while an earlier one has yet to write its
status. -/
def Watched.InTurn {N : Type} (s : Watched N V) (a : WorldAct N V) : Prop :=
  ∀ n node l run, a = .node n (.lane l .announce) → s.world.nodes n = some node → node.lanes l = .running run →
    ¬ node.Overtakes l run

/-- While the last run of a table is announced and has not failed, the table is
not shown as failed and the run is the only one to write its status. -/
def Owned (node : Node V) (last : String → Option LastRun) : Prop :=
  ∀ name r, last name = some r → r.announced = true → r.failed = false →
    node.coordinator.shown name ≠ some .failed ∧ ∀ j, (node.lanes j).row? = some name → j = r.lane

section Steps

variable [ToString V] {w w' : Shared V} {node node' : Node V} {last : String → Option LastRun}

omit [ToString V] in
/-- A run that shows its table as running in its turn is alone with its status. -/
theorem Scheduled.alone (hs : Scheduled node) {l : ℕ} {run : Run} (hrun : node.lanes l = .running run)
    (hover : run.point.over = false) (hturn : ¬ node.Overtakes l run) {j : ℕ} (hj : (node.lanes j).row? = some run.ref.string) :
    j = l := by
  by_contra hne
  cases hlane : node.lanes j with
  | running run' =>
    rw [hlane] at hj
    refine hturn ⟨j, run', hne, hlane, Option.some.inj hj, fun href => ?_⟩
    by_contra hover'
    have hover' : run'.point.over = false := Bool.eq_false_iff.mpr hover'
    refine hne (hs.once j l run.ref ?_ ?_)
    · rw [hlane, Lane.table?_running hover', href]
    · rw [hrun, Lane.table?_running hover]
  | _ =>
    rw [hlane] at hj
    cases hj

/-- A table the step is no milestone of. -/
theorem Owned.other (hn : Owned node last) {a : NodeAct V} (hstep : node.step w a = some (w', node')) {name : String} {r : LastRun}
    (hnone : ∀ l m, node.milestone a ≠ some (l, name, m)) (hr : last name = some r) (hannounced : r.announced = true)
    (hfailed : r.failed = false) :
    node'.coordinator.shown name ≠ some .failed ∧ ∀ j, (node'.lanes j).row? = some name → j = r.lane := by
  obtain ⟨hshown, hrow⟩ := hn name r hr hannounced hfailed
  refine ⟨fun hname => ?_, fun j hj => ?_⟩
  · rcases Node.step_failed_shown hstep hname with hbefore | ⟨l, hm⟩
    · exact hshown hbefore
    · exact hnone l .failed hm
  · rcases Node.step_row? hstep hj with hbefore | hm
    · exact hrow j hbefore
    · exact absurd hm (hnone j .taken)

/-- A run that shows its table as running in its turn owns the status from then
on. -/
theorem Scheduled.announce (hs : Scheduled node) {l : ℕ}
    (hturn : ∀ run, node.lanes l = .running run → ¬ node.Overtakes l run)
    (hstep : node.step w (.lane l .announce) = some (w', node')) {name : String} (hrow : (node.lanes l).row? = some name) :
    node'.coordinator.shown name ≠ some .failed ∧ ∀ j, (node'.lanes j).row? = some name → j = l := by
  obtain ⟨run, hrun, hpoint, hshown⟩ := Node.step_announce hstep
  rw [hrun] at hrow
  cases hrow
  refine ⟨by simp [hshown], fun j hj => ?_⟩
  rcases Node.step_row? hstep hj with hbefore | hm
  · exact hs.alone hrun (by rw [hpoint]; rfl) (hturn run hrun) hbefore
  · simp [Node.milestone] at hm

theorem Owned.step (hn : Owned node last) (hs : Scheduled node) {a : NodeAct V}
    (hturn : ∀ l run, a = .lane l .announce → node.lanes l = .running run → ¬ node.Overtakes l run)
    (hstep : node.step w a = some (w', node')) : Owned node' (follow last (node.milestone a)) := by
  intro name r hr hannounced hfailed
  rcases hm : node.milestone a with _ | ⟨l, name', m⟩
  · rw [hm] at hr
    exact hn.other hstep (by simp [hm]) hr hannounced hfailed
  rw [hm] at hr
  by_cases hname : name = name'
  · subst hname
    cases m with
    | taken =>
      simp only [follow, Function.update_self, Option.some.injEq] at hr
      subst hr
      cases hannounced
    | announced =>
      obtain ⟨hrow, hact⟩ := Node.milestone_row? hm (by simp)
      obtain rfl := hact rfl
      simp only [follow, Function.update_self, Option.map_eq_some_iff] at hr
      obtain ⟨r₀, hr₀, rfl⟩ := hr
      by_cases hlane : r₀.lane = l
      · rw [if_pos hlane, hlane]
        exact hs.announce (fun run => hturn l run rfl) hstep hrow
      · rw [if_neg hlane] at hannounced hfailed
        exact absurd ((hn name r₀ hr₀ hannounced hfailed).2 l hrow).symm hlane
    | failed =>
      obtain ⟨hrow, -⟩ := Node.milestone_row? hm (by simp)
      simp only [follow, Function.update_self, Option.map_eq_some_iff] at hr
      obtain ⟨r₀, hr₀, rfl⟩ := hr
      by_cases hlane : r₀.lane = l
      · rw [if_pos hlane] at hfailed
        cases hfailed
      · -- the lane of a run that is not the last one has no status to write
        rw [if_neg hlane] at hannounced hfailed
        exact absurd ((hn name r₀ hr₀ hannounced hfailed).2 l hrow).symm hlane
  · refine hn.other hstep (fun l' m' hm' => ?_) ?_ hannounced hfailed
    · rw [hm] at hm'
      cases hm'
      exact hname rfl
    · cases m <;> simpa [follow, Function.update_of_ne hname] using hr

end Steps

section Runs

variable [ToString V] {N : Type} [DecidableEq N]

theorem Watched.owned {shared : Shared V} {s : Watched N V}
    (hs : Reaches Watched.step Watched.InTurn { world := { shared } } s) :
    ∀ n node, s.world.nodes n = some node → Owned node (s.last n) := by
  induction hs with
  | refl =>
    intro n node hn
    cases hn
  | @tail s s' a hs hturn hstep ih =>
    obtain ⟨world, hworld, rfl⟩ := Option.map_eq_some_iff.mp hstep
    intro n node hn
    cases World.steps_of_step hworld with
    | commit | foreign => exact ih n node hn
    | @boot m cfg instanceID names loaded =>
      simp only [World.setNode, Watched.watch] at hn ⊢
      by_cases hm : n = m
      · subst hm
        intro name r hr
        simp at hr
      · rw [Function.update_of_ne hm] at hn ⊢
        exact ih n node hn
    | @crash m =>
      simp only [World.setNode] at hn
      by_cases hm : n = m
      · subst hm
        simp at hn
      · rw [Function.update_of_ne hm] at hn
        exact ih n node hn
    | @node m _ node₀ _ _ hm hnode =>
      simp only [Watched.watch] at hn ⊢
      by_cases hnm : n = m
      · subst hnm
        rw [Function.update_self] at hn ⊢
        cases hn
        rw [hm]
        exact (ih n node₀ hm).step (World.scheduled (Watched.reaches_world hs) hm)
          (fun l run ha hrun => hturn n node₀ l run (by rw [ha]) hm hrun) hnode
      · rw [Function.update_of_ne hnm] at hn ⊢
        exact ih n node hn

/-- **A status shows the failure of the last run**: in every run of the nodes in
which no run shows its table as running while an earlier run of the name has
yet to write its status. Once the last run of a table has shown it as running,
the table is shown as failed only if that run has failed. -/
theorem failed_status_own (shared : Shared V) {s : Watched N V}
    (hs : Reaches Watched.step Watched.InTurn { world := { shared } } s) {n : N} {node : Node V}
    (hn : s.world.nodes n = some node) {name : String} {r : LastRun} (hr : s.last n name = some r)
    (hannounced : r.announced = true) (hfailed : node.coordinator.shown name = some .failed) : r.failed = true := by
  by_contra hnot
  exact (Watched.owned hs n node hn name r hr hannounced (Bool.eq_false_iff.mpr hnot)).1 hfailed

end Runs

/-! ### Two runs of one table -/

def usersPending : Watched Unit ℕ := { world := { shared := { store := AList.insert "public.users" {} ∅ } } }

def onLane (l : ℕ) (as : List (LaneAct ℕ)) : List (WorldAct Unit ℕ) := as.map fun a => .node () (.lane l a)

/-- The first run cannot read the primary key, and takes the table out of
`running`. The table is asked for again. -/
def askedAgain : List (WorldAct Unit ℕ) :=
  .boot () { slotName := "gtc", chunkSize := 1, lanes := 2 } "7f3a" ["public.users"] true ::
    (onLane 0 [.pop, .primaryKey (.error "connection refused"), .leave, .returned] ++
      [WorldAct.node () (.request 0 .enqueueTable [users]), .node () (.mark 0 true), .node () (.grant 0)])

/-- The other lane takes the table, and is about to announce it. -/
def takenAgain : List (LaneAct ℕ) := [.pop, .primaryKey (.ok ["id"]), .load true, .loaded, .resume]

/-- The second run has announced the table and not failed when the first one
shows it as failed. -/
theorem failed_status_stale : ∃ (s : Watched Unit ℕ) (node : Node ℕ),
    Reaches Watched.step (fun _ _ => True) usersPending s ∧ s.world.nodes () = some node ∧
    s.last () "public.users" = some { lane := 1, announced := true, failed := false } ∧
    (∃ run, node.lanes 1 = .running run ∧ run.ref = users ∧ run.point = .fill) ∧
    node.coordinator.shown "public.users" = some .failed := by
  obtain ⟨s, hs, hseen⟩ : ∃ s, runSteps Watched.step usersPending
      (askedAgain ++ onLane 1 (takenAgain ++ [.announce]) ++ onLane 0 [.failed]) = some s ∧
      (s.last () "public.users", (s.world.nodes ()).map fun node => (node.lanes 1, node.coordinator.shown "public.users")) =
        (some ⟨1, true, false⟩, some (.running { ref := users, point := .fill, pkCols := ["id"] }, some .failed)) :=
    Option.map_eq_some_iff.mp (by decide +kernel)
  simp only [Prod.mk.injEq, Option.map_eq_some_iff] at hseen
  obtain ⟨hlast, node, hn, hlane, hshown⟩ := hseen
  exact ⟨s, node, reaches_of_runSteps hs, hn, hlast, ⟨_, hlane, rfl, rfl⟩, hshown⟩

/-- The first run writes its status before the second announces the table. -/
def inTurn : List (WorldAct Unit ℕ) := askedAgain ++ onLane 1 takenAgain ++ onLane 0 [.failed]

theorem inTurn_of_ne {a : WorldAct Unit ℕ} (ha : ∀ l, a ≠ .node () (.lane l .announce)) (s : Watched Unit ℕ) : s.InTurn a :=
  fun _ _ l _ heq => absurd heq (ha l)

theorem inTurn_announce {s : Watched Unit ℕ} (hs : runSteps Watched.step usersPending inTurn = some s) :
    s.InTurn (.node () (.lane 1 .announce)) := by
  have hseen : (s.world.nodes ()).map (fun node => (node.lanes 0, node.coordinator.cfg.lanes)) = some (.ready, 2) :=
    runSteps_observe (f := fun s => (s.world.nodes ()).map fun node => (node.lanes 0, node.coordinator.cfg.lanes)) hs
      (by decide +kernel)
  rintro n node l run heq hn - ⟨j, run', hne, hj, -⟩
  cases heq
  simp only [hn, Option.map_some, Option.some.injEq, Prod.mk.injEq] at hseen
  have hwakes := World.wakes (Watched.reaches_world (reaches_of_runSteps hs)) hn
  rcases Nat.lt_or_ge j 2 with hlt | hge
  · obtain rfl : j = 0 := by omega
    simp [hseen.1] at hj
  · simp [hwakes.beyond j (by omega)] at hj

/-- The second run cannot write its watermark. -/
theorem failed_status_own_emit : ∃ (s : Watched Unit ℕ) (node : Node ℕ) (r : LastRun),
    Reaches Watched.step Watched.InTurn usersPending s ∧ s.world.nodes () = some node ∧ s.last () "public.users" = some r ∧
    r.lane = 1 ∧ r.announced = true ∧ node.coordinator.shown "public.users" = some .failed ∧ r.failed = true := by
  obtain ⟨s, hs, hseen⟩ : ∃ s, runSteps Watched.step usersPending
      (inTurn ++ .node () (.lane 1 .announce) :: (.node () (.stream (.up 0)) :: onLane 1 [.fill, .waitForStream, .register,
        .emit false (some "connection refused"), .fail, .leave, .returned, .failed])) = some s ∧
      (s.last () "public.users", (s.world.nodes ()).map fun node => node.coordinator.shown "public.users") =
        (some ⟨1, true, true⟩, some (some .failed)) :=
    Option.map_eq_some_iff.mp (by decide +kernel)
  simp only [Prod.mk.injEq, Option.map_eq_some_iff] at hseen
  obtain ⟨hlast, node, hn, hshown⟩ := hseen
  have hreach : Reaches Watched.step Watched.InTurn usersPending s := by
    refine reaches_extend (fun u hu => reaches_of_runSteps_ok (fun a ha => inTurn_of_ne fun l heq => ?_) hu) (fun u hu => ?_)
      (fun b hb => inTurn_of_ne fun l heq => ?_) s hs
    · subst heq
      simp [inTurn, askedAgain, takenAgain, onLane] at ha
    · exact inTurn_announce hu
    · subst heq
      simp [onLane] at hb
  exact ⟨s, node, _, hreach, hn, hlast, rfl, rfl, hshown, failed_status_own _ hreach hn hlast rfl hshown⟩

end Gtc.Backfill
