/-
Redelivery to Meilisearch: batches processed again after any part of their
tasks took effect.

Every task of a batch writes only where the batch's events write
(`PlanOk.covered`), so whatever earlier attempts did is absorbed when the whole
sequence is processed (`applyAll_absorbs`). The one thing an attempt leaves in
the sink is the tasks of a batch whose wait was interrupted: the next batch
with the same key waits for these instead of being enqueued. The key is the
number of events and the first and the last event's identifier, so this need
not be the same batch (`shared_key_skips_batch`): `replay_converges_iff` says
exactly when every redelivery converges.
-/
import Gtc.Lib.History
import Gtc.Sink.MeiliPlan
import Mathlib.Data.List.Nodup

namespace Gtc

open Lib

variable {V : Type}

/-! ## The tasks of a plan -/

/-- Every index of a plan is enqueued once, and a plan without an index is of
events that write nothing. -/
structure OrderOk (s : MeiliSink V) (events : List (CDCEvent V)) (p : BatchPlan V) : Prop where
  nodup : p.order.Nodup
  mem : ∀ index, index ∈ p.order ↔ (p.runs index).isSome
  silent : p.order = [] → ∀ e ∈ events, s.eventWrite e = none

variable {s : MeiliSink V} {events : List (CDCEvent V)} {p : BatchPlan V} {tasks : List (EnqueuedTask V)}

theorem OrderOk.planEvent {p' : BatchPlan V} {event : CDCEvent V}
    (h : OrderOk s events p) (hplan : s.planEvent p event = .ok p') : OrderOk s (events ++ [event]) p' := by
  rcases planEvent_cases hplan with ⟨hwrite, rfl⟩ | ⟨index, kind, f, w, -, -, -, rfl⟩
  · refine ⟨h.nodup, h.mem, fun hnil e he => ?_⟩
    rcases List.mem_append.mp he with he | he
    · exact h.silent hnil e he
    · rw [List.mem_singleton.mp he]
      exact hwrite
  · have hmem : index ∈ (p.inRun index kind (s.config.getPrimaryKey event.schema event.table) f).order := by
      by_cases hseen : (p.runs index).isSome = true
      · simp [BatchPlan.inRun, hseen, (h.mem index).mpr hseen]
      · simp [BatchPlan.inRun, hseen]
    refine ⟨?_, fun index' => ?_, fun hnil => by rw [hnil] at hmem; cases hmem⟩
    · by_cases hseen : (p.runs index).isSome = true
      · simpa [BatchPlan.inRun, hseen] using h.nodup
      · have hnew : index ∉ p.order := fun hin => hseen ((h.mem index).mp hin)
        simpa [BatchPlan.inRun, hseen, List.nodup_append, h.nodup] using fun a ha (heq : a = index) => hnew (heq ▸ ha)
    · by_cases hindex : index' = index
      · subst hindex
        exact ⟨fun _ => by simp [BatchPlan.inRun], fun _ => hmem⟩
      · have hothers : (p.inRun index kind (s.config.getPrimaryKey event.schema event.table) f).runs index' =
            p.runs index' := Function.update_of_ne hindex _ _
        rw [hothers, ← h.mem index']
        by_cases hseen : (p.runs index).isSome = true
        · simp [BatchPlan.inRun, hseen]
        · simp [BatchPlan.inRun, hseen, hindex]

theorem MeiliSink.plan_order (h : s.plan events = .ok p) : OrderOk s events p :=
  MeiliSink.plan_induction ⟨by simp, by simp, by simp⟩ (fun _ _ _ _ hok hevent => hok.planEvent hevent) h

/-- What tasks do to one index. -/
def taskWrites (s : MeiliSink V) (index : String) (tasks : List (String × MeiliRun V)) : List (MeiliWrite V) :=
  (tasks.filter (·.1 = index)).flatMap (·.2.writes s)

/-- A task that succeeds writes its index and no other. -/
theorem applyAll_taskWrites_cons (s : MeiliSink V) (c : Indexes V) (index : String) (run : MeiliRun V)
    (tasks : List (String × MeiliRun V)) (index' : String) :
    applyAll (taskWrites s index' ((index, run) :: tasks)) (c index') =
      applyAll (taskWrites s index' tasks) (Function.update c index (applyAll (run.writes s) (c index)) index') := by
  by_cases hindex : index' = index
  · subst hindex
    simp [taskWrites]
  · simp [taskWrites, Function.update_of_ne hindex, Ne.symm hindex]

theorem filter_flatMap_tagged {B : Type} {order : List String} (hnodup : order.Nodup) (g : String → List B)
    (index : String) : (order.flatMap fun i => (g i).map fun b => (i, b)).filter (·.1 = index) =
      if index ∈ order then (g index).map fun b => (index, b) else [] := by
  induction order with
  | nil => simp
  | cons i order ih =>
    obtain ⟨hi, hnodup⟩ := List.nodup_cons.mp hnodup
    rw [List.flatMap_cons, List.filter_append, ih hnodup, List.filter_map]
    by_cases hindex : i = index
    · subst hindex
      simp [hi, Function.comp_def]
    · simp [hindex, Ne.symm hindex, Function.comp_def]

theorem taskWrites_tasks (h : OrderOk s events p)
    (index : String) : taskWrites s index p.tasks = p.writes s index := by
  rw [taskWrites, BatchPlan.tasks, filter_flatMap_tagged h.nodup]
  by_cases hmem : index ∈ p.order
  · rw [if_pos hmem, List.flatMap_map]
    rfl
  · have hnone : p.runs index = none := by
      rw [← Option.not_isSome_iff_eq_none, ← h.mem index]
      exact hmem
    simp [hmem, BatchPlan.writes, hnone]

/-- The batch is planned as some tasks. -/
def MeiliSink.HasTasks (s : MeiliSink V) (batch : List (CDCEvent V)) : Prop := ∃ p, s.plan batch = .ok p ∧ p.order ≠ []

/-- The batch is planned as no tasks. -/
def MeiliSink.Silent (s : MeiliSink V) (batch : List (CDCEvent V)) : Prop := ∃ p, s.plan batch = .ok p ∧ p.order = []

theorem MeiliSink.Silent.not_hasTasks {batch : List (CDCEvent V)} (h : s.Silent batch) : ¬ s.HasTasks batch := by
  obtain ⟨p, hplan, horder⟩ := h
  rintro ⟨p', hplan', hne⟩
  cases hplan.symm.trans hplan'
  exact hne horder

/-! ## What a `Process` does -/

/-- The tasks that succeed, in order, are what changes the indexes. -/
theorem enqueueTasks_spec (s : MeiliSink V) (fates : TaskFates) (i : ℕ) (tasks : List (String × MeiliRun V))
    (c : Indexes V) : ∃ done, List.Sublist done tasks ∧
      (∀ index, (enqueueTasks s fates i tasks c).2 index = applyAll (taskWrites s index done) (c index)) ∧
      ∀ enqueued, (enqueueTasks s fates i tasks c).1 = .ok enqueued →
        (∀ t ∈ enqueued, t.result = .succeeded) → done = tasks := by
  induction tasks generalizing i c with
  | nil => exact ⟨[], List.Sublist.refl _, fun _ => rfl, fun _ _ _ => rfl⟩
  | cons task tasks ih =>
    obtain ⟨index, run⟩ := task
    cases hfate : fates.enqueue i with
    | error refused =>
      obtain ⟨status, err, taken⟩ := refused
      refine ⟨if taken then [(index, run)] else [], ?_, fun index' => ?_, fun _ h => by simp [enqueueTasks, hfate] at h⟩
      · cases taken <;> simp
      · cases taken with
        | false => simp [enqueueTasks, hfate, taskWrites]
        | true =>
          simp only [enqueueTasks, hfate, if_true, applyAll_taskWrites_cons]
          rfl
    | ok answer =>
      obtain ⟨uid, result⟩ := answer
      obtain ⟨done, hdone, hindexes, hall⟩ := ih (i + 1)
        (if result = .succeeded then Function.update c index (applyAll (run.writes s) (c index)) else c)
      have htasks {enqueued : List (EnqueuedTask V)}
          (h : (enqueueTasks s fates i ((index, run) :: tasks) c).1 = .ok enqueued) :
          ∃ rest, enqueued = { uid, index, run, result } :: rest ∧ (enqueueTasks s fates (i + 1) tasks
            (if result = .succeeded then Function.update c index (applyAll (run.writes s) (c index)) else c)).1 =
              .ok rest := by
        simp only [enqueueTasks, hfate] at h
        cases hrest : (enqueueTasks s fates (i + 1) tasks
            (if result = .succeeded then Function.update c index (applyAll (run.writes s) (c index)) else c)).1 with
        | error err => rw [hrest] at h; cases h
        | ok rest => rw [hrest] at h; cases h; exact ⟨rest, rfl, rfl⟩
      by_cases hresult : result = .succeeded
      · refine ⟨(index, run) :: done, hdone.cons_cons _, fun index' => ?_, fun enqueued h hsucceeded => ?_⟩
        · simp only [enqueueTasks, hfate, hindexes]
          rw [if_pos hresult, applyAll_taskWrites_cons]
        · obtain ⟨rest, rfl, hrest⟩ := htasks h
          rw [hall rest hrest fun t ht => hsucceeded t (by simp [ht])]
      · refine ⟨done, hdone.cons _, fun index' => ?_, fun enqueued h hsucceeded => ?_⟩
        · simp only [enqueueTasks, hfate, hindexes]
          rw [if_neg hresult]
        · obtain ⟨rest, rfl, -⟩ := htasks h
          exact absurd (hsucceeded _ (List.mem_cons_self ..)) hresult

theorem firstFailed_eq_none (h : firstFailed tasks = none) : ∀ t ∈ tasks, t.result = .succeeded := by
  induction tasks with
  | nil => simp
  | cons task tasks ih =>
    unfold firstFailed at h
    cases hresult : task.result with
    | succeeded =>
      simp only [hresult] at h
      simpa [hresult] using ih h
    | failed status message code type =>
      cases hrest : firstFailed tasks with
      | none => simp [hresult, hrest] at h
      | some found =>
        obtain ⟨other, info⟩ := found
        simp only [hresult, hrest] at h
        split at h <;> cases h

theorem awaitTasks_eq_none {wait : TaskWait} (h : awaitTasks tasks wait = none) :
    wait = .finished ∧ ∀ t ∈ tasks, t.result = .succeeded := by
  cases wait with
  | pollError err => cases h
  | lost found => cases h
  | interrupted err => cases h
  | finished =>
    refine ⟨rfl, firstFailed_eq_none ?_⟩
    unfold awaitTasks at h
    cases hfailed : firstFailed tasks with
    | none => rfl
    | some found => rw [hfailed] at h; cases h

theorem resumable_eq_some {st : MeiliState V} {key : String} (h : st.resumable key = some tasks) :
    ∃ q, st.pending = some q ∧ q.key = key ∧ q.tasks = tasks := by
  unfold MeiliState.resumable at h
  cases hpending : st.pending with
  | none => simp [hpending] at h
  | some q =>
    simp only [hpending, Option.ite_none_right_eq_some, Option.some.injEq] at h
    exact ⟨q, rfl, h.1, h.2⟩

/-- The wait keeps the indexes; it can forget the tasks it waited for, and does so
when all of them succeeded. -/
theorem await_spec (st : MeiliState V) (pending : Inflight V) (hpending : st.pending = some pending) (wait : TaskWait) :
    ((st.await pending.key pending.tasks wait).2 = st ∨
      (st.await pending.key pending.tasks wait).2 = { st with pending := none }) ∧
    ((st.await pending.key pending.tasks wait).1 = none →
      (st.await pending.key pending.tasks wait).2 = { st with pending := none } ∧
        ∀ t ∈ pending.tasks, t.result = .succeeded) := by
  have hforget : st.forget pending.key = { st with pending := none } := by simp [MeiliState.forget, hpending]
  unfold MeiliState.await
  cases hwait : awaitTasks pending.tasks wait with
  | some err =>
    refine ⟨?_, by simp⟩
    simp only [hforget]
    split
    · exact .inr rfl
    · exact .inl rfl
  | none =>
    exact ⟨.inr hforget, fun _ => ⟨hforget, (awaitTasks_eq_none hwait).2⟩⟩

/-- The ways a `Process` can go: nothing to enqueue or no plan, a wait for the
tasks of the batch with the same key, or tasks enqueued of which `done`
succeed. -/
inductive Processed (s : MeiliSink V) (events : List (CDCEvent V)) (st : MeiliState V) :
    Option Err → MeiliState V → Prop
  | idle {err} : (err = none → s.Silent events ∧
      (events ≠ [] → ∀ pending, st.pending = some pending → pending.key ≠ batchKey events)) → Processed s events st err st
  | resumed {err st' pending} : st.pending = some pending → pending.key = batchKey events →
      st' = st ∨ st' = { st with pending := none } →
      (err = none → st' = { st with pending := none } ∧ ∀ t ∈ pending.tasks, t.result = .succeeded) →
      Processed s events st err st'
  | enqueued {err st' p done} : s.plan events = .ok p → p.order ≠ [] → List.Sublist done p.tasks →
      (∀ pending, st.pending = some pending → pending.key ≠ batchKey events) →
      (∀ index, st'.indexes index = applyAll (taskWrites s index done) (st.indexes index)) →
      (st'.pending = st.pending ∨ st'.pending = none ∨ ∃ tasks, st'.pending = some ⟨batchKey events, tasks⟩ ∧
        ((∀ t ∈ tasks, t.result = .succeeded) → done = p.tasks)) →
      (err = none → done = p.tasks ∧ st'.pending = none) →
      Processed s events st err st'

theorem process_spec (s : MeiliSink V) (fates : TaskFates) (events : List (CDCEvent V)) (st : MeiliState V) :
    Processed s events st (s.process fates events st).1 (s.process fates events st).2 := by
  unfold MeiliSink.process
  by_cases hempty : events = []
  · subst hempty
    exact .idle fun _ => ⟨⟨{}, rfl, rfl⟩, fun hne => absurd rfl hne⟩
  have hnot : events.isEmpty = false := by simpa using hempty
  simp only [hnot, Bool.false_eq_true, if_false]
  cases hresume : st.resumable (batchKey events) with
  | some tasks =>
    obtain ⟨pending, hpending, hkey, rfl⟩ := resumable_eq_some hresume
    obtain ⟨hstate, hdone⟩ := await_spec st pending hpending fates.wait
    rw [hkey] at hstate hdone
    exact .resumed hpending hkey hstate hdone
  | none =>
    have hother : ∀ pending, st.pending = some pending → pending.key ≠ batchKey events := by
      intro pending hpending hkey
      simp [MeiliState.resumable, hpending, hkey] at hresume
    cases hplan : s.plan events with
    | error err => exact .idle (by simp)
    | ok p =>
      by_cases horder : p.order = []
      · simp only [horder, List.isEmpty_nil, if_true]
        exact .idle fun _ => ⟨⟨p, hplan, horder⟩, fun _ => hother⟩
      have hnotEmpty : p.order.isEmpty = false := by simpa using horder
      simp only [hnotEmpty, Bool.false_eq_true, if_false]
      obtain ⟨done, hdone, hindexes, hall⟩ := enqueueTasks_spec s fates 0 p.tasks st.indexes
      cases henqueue : enqueueTasks s fates 0 p.tasks st.indexes with
      | mk answer indexes =>
        rw [henqueue] at hindexes hall
        cases answer with
        | error err => exact .enqueued hplan horder hdone hother hindexes (.inl rfl) (by simp)
        | ok tasks =>
          let st₁ : MeiliState V := { indexes, pending := some ⟨batchKey events, tasks⟩ }
          obtain ⟨hstate, hsucceeded⟩ := await_spec st₁ ⟨batchKey events, tasks⟩ rfl fates.wait
          have hkept : ∀ index, (st₁.await (batchKey events) tasks fates.wait).2.indexes index =
              applyAll (taskWrites s index done) (st.indexes index) := by
            intro index
            rcases hstate with h | h <;> simp only at h <;> rw [h] <;> exact hindexes index
          refine .enqueued hplan horder hdone hother hkept ?_ fun hnone => ?_
          · rcases hstate with h | h
            · exact .inr (.inr ⟨tasks, by simp only at h; rw [h], fun hts => hall tasks rfl hts⟩)
            · exact .inr (.inl (by simp only at h; rw [h]))
          · obtain ⟨hst, hts⟩ := hsucceeded hnone
            exact ⟨hall tasks rfl hts, by simp only at hst; rw [hst]⟩

/-! ## Attempts -/

structure MeiliAttempt (V : Type) where
  batch : List (CDCEvent V)
  fates : TaskFates

/-- One `Process` of some batch, whatever it returns. -/
def MeiliSink.attempt (s : MeiliSink V) (st : MeiliState V) (a : MeiliAttempt V) : Option (MeiliState V) :=
  some (s.process a.fates a.batch st).2

/-- The batches processed one after the other, each with success. -/
inductive Passes (s : MeiliSink V) : MeiliState V → List (List (CDCEvent V)) → MeiliState V → Prop
  | nil {st} : Passes s st [] st
  | cons {st st₁ st' batch batches} (fates : TaskFates) : s.process fates batch st = (none, st₁) →
      Passes s st₁ batches st' → Passes s st (batch :: batches) st'

section Replay

variable {s : MeiliSink V} {keys : String → String} {batches : List (List (CDCEvent V))}

variable {events batch : List (CDCEvent V)} {st st' : MeiliState V}

/-- Some of a batch's tasks write only where the batch writes. -/
theorem covers_of_sublist (hkeys : s.config.KeyedBy keys) {p : BatchPlan V}
    (hplan : s.plan events = .ok p) {done : List (String × MeiliRun V)} (hdone : List.Sublist done p.tasks)
    (index : String) : ∀ w ∈ taskWrites s index done, Covers (s.eventWrites index events) w := by
  intro w hw
  refine (MeiliSink.plan_ok hkeys hplan).covered index w ?_
  rw [← taskWrites_tasks (MeiliSink.plan_order hplan)]
  obtain ⟨task, htask, hw⟩ := List.mem_flatMap.mp hw
  obtain ⟨htask, hindex⟩ := List.mem_filter.mp htask
  exact List.mem_flatMap.mpr ⟨task, List.mem_filter.mpr ⟨hdone.subset htask, hindex⟩, hw⟩

/-- All tasks of a batch do what the batch does. -/
theorem applyAll_tasks (hkeys : s.config.KeyedBy keys) {p : BatchPlan V}
    (hplan : s.plan events = .ok p) (index : String) (c : Documents String String (Option V)) :
    applyAll (taskWrites s index p.tasks) c = applyAll (s.eventWrites index events) c := by
  rw [taskWrites_tasks (MeiliSink.plan_order hplan), (MeiliSink.plan_ok hkeys hplan).same]

theorem eventWrites_subset (h : batch ∈ batches) (index : String) :
    s.eventWrites index batch ⊆ s.eventWrites index batches.flatten := by
  obtain ⟨before, after, rfl⟩ := List.append_of_mem h
  simp [MeiliSink.eventWrites_append]

/-- After any attempts: an index differs from what it held at the start only where
the sequence writes; and when the batch whose tasks are pending succeeded with
all of them, it has been applied, and what followed came from other batches. -/
structure Attempted (s : MeiliSink V) (batches : List (List (CDCEvent V))) (c : Indexes V) (st : MeiliState V) : Prop where
  agree : ∀ index, Agree (s.eventWrites index batches.flatten) (c index) (st.indexes index)
  pending : ∀ pending, st.pending = some pending → ∃ batch ∈ batches, batchKey batch = pending.key ∧
    s.HasTasks batch ∧ ((∀ t ∈ pending.tasks, t.result = .succeeded) → ∀ index, ∃ c₁ done,
      Agree (s.eventWrites index batches.flatten) (c index) c₁ ∧
      st.indexes index = applyAll done (applyAll (s.eventWrites index batch) c₁) ∧
      ∀ w ∈ done, ∃ other ∈ batches, other ≠ batch ∧ Covers (s.eventWrites index other) w)

theorem Attempted.process (hkeys : s.config.KeyedBy keys) {c : Indexes V}
    (hbatch : batch ∈ batches) {err : Option Err} (h : Attempted s batches c st)
    (hprocess : Processed s batch st err st') : Attempted s batches c st' := by
  cases hprocess with
  | idle => exact h
  | resumed hpending hkey hstate _ =>
    rcases hstate with rfl | rfl
    · exact h
    · exact ⟨h.agree, by simp⟩
  | @enqueued _ p done hplan horder hdone hother hindexes hafter _ =>
    have hcovers := covers_of_sublist hkeys hplan hdone
    refine ⟨fun index => ?_, fun pending hpending => ?_⟩
    · rw [hindexes]
      exact (h.agree index).absorbs fun w hw => (hcovers index w hw).mono (eventWrites_subset hbatch index)
    · rcases hafter with hsame | hnone | ⟨tasks, htasks, hall⟩
      · rw [hsame] at hpending
        obtain ⟨before, hbefore, hkey, htasks, happlied⟩ := h.pending pending hpending
        refine ⟨before, hbefore, hkey, htasks, fun hsucceeded index => ?_⟩
        obtain ⟨c₁, done₁, hagree, hst, hdone₁⟩ := happlied hsucceeded index
        refine ⟨c₁, done₁ ++ taskWrites s index done, hagree, by rw [hindexes, hst, applyAll_append], fun w hw => ?_⟩
        rcases List.mem_append.mp hw with hw | hw
        · exact hdone₁ w hw
        · refine ⟨batch, hbatch, ?_, hcovers index w hw⟩
          rintro rfl
          exact hother pending hpending hkey.symm
      · rw [hnone] at hpending
        cases hpending
      · rw [htasks] at hpending
        cases hpending
        refine ⟨batch, hbatch, rfl, ⟨p, hplan, horder⟩, fun hsucceeded index => ⟨st.indexes index, [], h.agree index, ?_, by simp⟩⟩
        rw [hindexes, hall hsucceeded, applyAll_tasks hkeys hplan, applyAll_nil]

/-! ## The pass -/

/-- A `Process` that returned nil had nothing to write, waited for the pending
tasks, which had succeeded, or applied its batch. -/
theorem process_nil_cases (hkeys : s.config.KeyedBy keys) (h : Processed s batch st none st') :
    (st' = st ∧ s.Silent batch ∧ (batch ≠ [] → ∀ pending, st.pending = some pending → pending.key ≠ batchKey batch)) ∨
    (∃ pending, st.pending = some pending ∧ pending.key = batchKey batch ∧
      (∀ t ∈ pending.tasks, t.result = .succeeded) ∧ st' = { st with pending := none }) ∨
    ((∀ index, st'.indexes index = applyAll (s.eventWrites index batch) (st.indexes index)) ∧ st'.pending = none) := by
  cases h with
  | idle hsilent => exact .inl ⟨rfl, hsilent rfl⟩
  | resumed hpending hkey _ hdone => exact .inr (.inl ⟨_, hpending, hkey, (hdone rfl).2, (hdone rfl).1⟩)
  | enqueued hplan _ _ _ hindexes _ hdone =>
    obtain ⟨rfl, hnone⟩ := hdone rfl
    exact .inr (.inr ⟨fun index => by rw [hindexes, applyAll_tasks hkeys hplan], hnone⟩)

theorem eventWrites_silent (h : s.Silent batch) (index : String) : s.eventWrites index batch = [] := by
  obtain ⟨p, hplan, horder⟩ := h
  have hnil : batch.filterMap s.eventWrite = [] :=
    List.filterMap_eq_nil_iff.mpr ((MeiliSink.plan_order hplan).silent horder)
  simp [MeiliSink.eventWrites, hnil]

theorem eventWrites_cons_silent (h : s.Silent batch) (index : String) :
    s.eventWrites index (batch :: batches).flatten = s.eventWrites index batches.flatten := by
  rw [List.flatten_cons, MeiliSink.eventWrites_append, eventWrites_silent h, List.nil_append]

theorem eventWrites_flatten_silent (h : ∀ b ∈ batches, s.Silent b) (index : String) :
    s.eventWrites index batches.flatten = [] := by
  induction batches with
  | nil => rfl
  | cons batch batches ih =>
    rw [eventWrites_cons_silent (h batch (by simp)), ih fun b hb => h b (by simp [hb])]

/-- What batches other than the next one wrote is written again by those that follow. -/
theorem covers_of_others {before rest : List (List (CDCEvent V))} (hbefore : ∀ b ∈ before, s.Silent b) {index : String}
    {w : MeiliWrite V}
    (h : ∃ other ∈ before ++ batch :: rest, other ≠ batch ∧ Covers (s.eventWrites index other) w) :
    Covers (s.eventWrites index rest.flatten) w := by
  obtain ⟨other, hother, hne, hcovers⟩ := h
  rcases List.mem_append.mp hother with hother | hother
  · rw [eventWrites_silent (hbefore other hother)] at hcovers
    exact hcovers.mono (by simp)
  · exact hcovers.mono (eventWrites_subset ((List.mem_cons.mp hother).resolve_left hne) index)

/-- Without pending tasks a pass applies its batches. -/
theorem Passes.fresh (hkeys : s.config.KeyedBy keys) (h : Passes s st batches st')
    (hpending : st.pending = none) (index : String) :
    st'.indexes index = applyAll (s.eventWrites index batches.flatten) (st.indexes index) := by
  induction h with
  | nil => rfl
  | @cons st st₁ st' batch batches fates hprocess _ ih =>
    have hspec := process_spec s fates batch st
    rw [hprocess] at hspec
    rw [List.flatten_cons, MeiliSink.eventWrites_append, applyAll_append]
    rcases process_nil_cases hkeys hspec with ⟨rfl, hsilent, -⟩ | ⟨pending, hsome, -⟩ | ⟨hindexes, hnone⟩
    · rw [eventWrites_silent hsilent, applyAll_nil]
      exact ih hpending
    · rw [hpending] at hsome
      cases hsome
    · rw [← hindexes]
      exact ih hnone

theorem exists_plan_of_process {fates : TaskFates}
    (hpending : st.pending = none) (h : s.process fates events st = (none, st')) : ∃ p, s.plan events = .ok p := by
  cases hplan : s.plan events with
  | ok p => exact ⟨p, rfl⟩
  | error err =>
    have hne : events.isEmpty = false := by
      cases events with
      | nil => cases hplan
      | cons event events => rfl
    simp [MeiliSink.process, hne, MeiliState.resumable, hpending, hplan] at h

theorem pending_of_process (hkeys : s.config.KeyedBy keys) {fates : TaskFates}
    (hpending : st.pending = none) (h : s.process fates events st = (none, st')) : st'.pending = none := by
  have hspec := process_spec s fates events st
  rw [h] at hspec
  rcases process_nil_cases hkeys hspec with ⟨rfl, -⟩ | ⟨pending, hsome, -⟩ | ⟨-, hnone⟩
  · exact hpending
  · rw [hpending] at hsome
    cases hsome
  · exact hnone

/-- Without pending tasks every batch of a pass is planned. -/
theorem Passes.planned (hkeys : s.config.KeyedBy keys) (h : Passes s st batches st')
    (hpending : st.pending = none) : ∀ b ∈ batches, ∃ p, s.plan b = .ok p := by
  induction h with
  | nil => simp
  | cons fates hprocess _ ih =>
    exact List.forall_mem_cons.mpr
      ⟨exists_plan_of_process hpending hprocess, ih (pending_of_process hkeys hpending hprocess)⟩

/-- A batch that may take the tasks of a later one for its own can be left out.
This is a batch before which nothing has a task, or its key; a later batch has its
key and tasks, and what comes after it can all be planned. -/
def MeiliSink.HarmlessSkips (s : MeiliSink V) (batches : List (List (CDCEvent V))) : Prop :=
  ∀ before batch rest, batches = before ++ batch :: rest →
    (∀ b ∈ before, s.Silent b ∧ (b ≠ [] → batchKey b ≠ batchKey batch)) →
    (∃ b ∈ rest, batchKey b = batchKey batch ∧ s.HasTasks b) → (∀ b ∈ rest, ∃ p, s.plan b = .ok p) →
    ∀ c, rest.flatten.foldl s.applyEvent c = (batch :: rest).flatten.foldl s.applyEvent c

/-- No two batches have one key, where the first leaves tasks to resume and the
second has something to do. -/
def MeiliSink.KeysApart (s : MeiliSink V) (B : List (CDCEvent V) → Prop) : Prop :=
  ∀ b b', B b → B b' → batchKey b = batchKey b' → s.HasTasks b → ¬ s.Silent b' → b = b'

theorem MeiliSink.KeysApart.harmlessSkips (h : s.KeysApart (· ∈ batches)) : s.HarmlessSkips batches := by
  rintro before batch rest rfl - ⟨b, hb, hkey, htasks⟩ - c
  funext index
  rw [s.applyEvent_eq, s.applyEvent_eq, List.flatten_cons, MeiliSink.eventWrites_append]
  by_cases hsilent : s.Silent batch
  · rw [eventWrites_silent hsilent, List.nil_append]
  · obtain rfl := h b batch (by simp [hb]) (by simp) hkey htasks hsilent
    rw [applyAll_append, applyAll_absorbs fun w hw => Covers.of_mem (eventWrites_subset hb index hw)]

/-- A pass over the rest of the sequence, where nothing before it writes or has the
key of the pending tasks. -/
theorem Passes.converges (hkeys : s.config.KeyedBy keys) {c : Indexes V} (before : List (List (CDCEvent V)))
    {rest : List (List (CDCEvent V))} (hskips : s.HarmlessSkips (before ++ rest))
    (hbefore : ∀ b ∈ before, s.Silent b ∧ (b ≠ [] → ∀ pending, st.pending = some pending → pending.key ≠ batchKey b))
    (h : Passes s st rest st') (hst : Attempted s (before ++ rest) c st) (index : String) :
    st'.indexes index = applyAll (s.eventWrites index rest.flatten) (c index) := by
  have hall : s.eventWrites index (before ++ rest).flatten = s.eventWrites index rest.flatten := by
    rw [List.flatten_append, MeiliSink.eventWrites_append, eventWrites_flatten_silent fun b hb => (hbefore b hb).1,
      List.nil_append]
  induction h generalizing before with
  | nil =>
    have hagree := hst.agree index
    rw [hall] at hagree
    exact hagree.eq.symm
  | @cons st st₁ st' batch rest fates hprocess hrest ih =>
    have hspec := process_spec s fates batch st
    rw [hprocess] at hspec
    rcases process_nil_cases hkeys hspec with ⟨rfl, hnone, hother⟩ | ⟨pending, hpending, hkey, hsucceeded, rfl⟩ | ⟨hindexes, hnone⟩
    · have hmove : before ++ batch :: rest = (before ++ [batch]) ++ rest := by simp
      rw [hmove] at hskips hst
      have hbefore' : ∀ b ∈ before ++ [batch], s.Silent b ∧
          (b ≠ [] → ∀ pending, st₁.pending = some pending → pending.key ≠ batchKey b) := by
        intro b hb
        rcases List.mem_append.mp hb with hb | hb
        · exact hbefore b hb
        · rw [List.mem_singleton.mp hb]
          exact ⟨hnone, hother⟩
      rw [eventWrites_cons_silent hnone]
      refine ih (before ++ [batch]) hskips hbefore' hst ?_
      rw [← hmove, hall, eventWrites_cons_silent hnone]
    · obtain ⟨applied, hmem, hkey', htasks, happlied⟩ := hst.pending pending hpending
      rcases List.mem_append.mp hmem with hmem | hmem
      · exact absurd htasks (hbefore applied hmem).1.not_hasTasks
      by_cases hsame : applied = batch
      · -- The pending tasks are this batch's: it has been applied, and what was
        -- written since is written again by the batches that follow.
        subst hsame
        obtain ⟨c₁, done, hagree, hindexes, hdone⟩ := happlied hsucceeded index
        have habsorbed : ∀ w ∈ done, Covers (s.eventWrites index rest.flatten) w :=
          fun w hw => covers_of_others (fun b hb => (hbefore b hb).1) (hdone w hw)
        rw [hrest.fresh hkeys rfl, hindexes, applyAll_absorbs habsorbed, ← applyAll_append,
          ← MeiliSink.eventWrites_append, ← List.flatten_cons, ← hall]
        exact hagree.applyAll.symm
      · -- They are a later batch's, and this one is skipped.
        have hskipped := hskips before batch rest rfl
          (fun b hb => ⟨(hbefore b hb).1, fun hne heq => (hbefore b hb).2 hne pending hpending (hkey.trans heq.symm)⟩)
          ⟨applied, (List.mem_cons.mp hmem).resolve_left hsame, hkey'.trans hkey, htasks⟩ (hrest.planned hkeys rfl) st.indexes
        have hskipped := congrFun hskipped index
        rw [s.applyEvent_eq, s.applyEvent_eq] at hskipped
        rw [hrest.fresh hkeys rfl, hskipped, ← hall]
        exact (hst.agree index).applyAll.symm
    · rw [hrest.fresh hkeys hnone, hindexes, ← applyAll_append, ← MeiliSink.eventWrites_append, ← List.flatten_cons, ← hall]
      exact (hst.agree index).applyAll.symm

end Replay

/-! ## A pass that takes a later batch's tasks -/

/-- Every task is enqueued and succeeds; the wait ends as given. -/
def allSucceed (wait : TaskWait) : TaskFates where
  enqueue i := .ok (i, .succeeded)
  wait

section Skip

variable {s : MeiliSink V}

theorem enqueueTasks_allSucceed (s : MeiliSink V) (wait : TaskWait) (i : ℕ) (tasks : List (String × MeiliRun V)) (c : Indexes V) :
    ∃ enqueued, (enqueueTasks s (allSucceed wait) i tasks c).1 = .ok enqueued ∧ ∀ t ∈ enqueued, t.result = .succeeded := by
  induction tasks generalizing i c with
  | nil => exact ⟨[], rfl, by simp⟩
  | cons task tasks ih =>
    obtain ⟨index, run⟩ := task
    obtain ⟨rest, hrest, hall⟩ := ih (i + 1) (Function.update c index (applyAll (run.writes s) (c index)))
    have hfate : (allSucceed wait).enqueue i = .ok (i, .succeeded) := rfl
    exact ⟨⟨i, index, run, .succeeded⟩ :: rest, by simp [enqueueTasks, hfate, hrest, Except.map], by simpa using hall⟩

variable {tasks : List (EnqueuedTask V)} {b : List (CDCEvent V)} {st : MeiliState V}
  {before rest : List (List (CDCEvent V))}

theorem firstFailed_of_succeeded (h : ∀ t ∈ tasks, t.result = .succeeded) : firstFailed tasks = none := by
  induction tasks with
  | nil => rfl
  | cons task tasks ih =>
    rw [firstFailed, h task (by simp)]
    exact ih fun t ht => h t (by simp [ht])

theorem process_silent (fates : TaskFates) (h : s.Silent b)
    (hother : b ≠ [] → st.resumable (batchKey b) = none) : s.process fates b st = (none, st) := by
  obtain ⟨p, hplan, horder⟩ := h
  unfold MeiliSink.process
  by_cases hempty : b = []
  · simp [hempty]
  · simp [hempty, hother hempty, hplan, horder]

/-- A batch with tasks, where nothing can be resumed and every task succeeds: the
tasks are pending when the wait starts. -/
theorem process_allSucceed (wait : TaskWait) (hb : s.HasTasks b) (st : MeiliState V)
    (hother : st.resumable (batchKey b) = none) : ∃ indexes tasks, (∀ t ∈ tasks, t.result = .succeeded) ∧
      s.process (allSucceed wait) b st =
        MeiliState.await { indexes, pending := some ⟨batchKey b, tasks⟩ } (batchKey b) tasks wait := by
  obtain ⟨p, hplan, horder⟩ := hb
  have hne : b ≠ [] := by
    rintro rfl
    cases hplan
    exact horder rfl
  obtain ⟨tasks, htasks, hall⟩ := enqueueTasks_allSucceed s wait 0 p.tasks st.indexes
  refine ⟨(enqueueTasks s (allSucceed wait) 0 p.tasks st.indexes).2, tasks, hall, ?_⟩
  have henqueue : enqueueTasks s (allSucceed wait) 0 p.tasks st.indexes =
      (.ok tasks, (enqueueTasks s (allSucceed wait) 0 p.tasks st.indexes).2) := Prod.ext htasks rfl
  unfold MeiliSink.process
  simp only [List.isEmpty_iff, hne, hother, hplan, horder, if_false]
  rw [henqueue]
  rfl

/-- A wait for tasks that succeeded, and are the pending ones, ends with nil. -/
theorem await_succeeded {key : String}
    (hpending : st.pending = some ⟨key, tasks⟩) (hall : ∀ t ∈ tasks, t.result = .succeeded) :
    st.await key tasks .finished = (none, { st with pending := none }) := by
  simp [MeiliState.await, awaitTasks, firstFailed_of_succeeded hall, MeiliState.forget, hpending]

theorem process_interrupted (hb : s.HasTasks b) (indexes : Indexes V) :
    ∃ tasks, (s.process (allSucceed (.interrupted .deadlineExceeded)) b { indexes, pending := none }).2.pending =
      some ⟨batchKey b, tasks⟩ ∧ ∀ t ∈ tasks, t.result = .succeeded := by
  obtain ⟨indexes', tasks, hall, hprocess⟩ := process_allSucceed (.interrupted .deadlineExceeded) hb
    { indexes, pending := none } rfl
  exact ⟨tasks, by rw [hprocess]; rfl, hall⟩

theorem process_resumes (hne : b ≠ [])
    (hpending : st.pending = some ⟨batchKey b, tasks⟩) (hall : ∀ t ∈ tasks, t.result = .succeeded) :
    s.process (allSucceed .finished) b st = (none, { st with pending := none }) := by
  have hresume : st.resumable (batchKey b) = some tasks := by simp [MeiliState.resumable, hpending]
  unfold MeiliSink.process
  simp only [List.isEmpty_iff, hne, hresume, if_false]
  exact await_succeeded hpending hall

theorem Passes.append {st₁ st' : MeiliState V} (h : Passes s st before st₁)
    (hrest : Passes s st₁ rest st') : Passes s st (before ++ rest) st' := by
  induction h with
  | nil => exact hrest
  | cons fates hprocess _ ih => exact .cons fates hprocess (ih hrest)

theorem passes_silent
    (h : ∀ b ∈ before, s.Silent b ∧ (b ≠ [] → st.resumable (batchKey b) = none)) : Passes s st before st := by
  induction before with
  | nil => exact .nil
  | cons b before ih =>
    obtain ⟨⟨hb, hother⟩, hbefore⟩ := List.forall_mem_cons.mp h
    exact .cons (allSucceed .finished) (process_silent _ hb hother) (ih hbefore)

theorem exists_passes (h : ∀ b ∈ rest, ∃ p, s.plan b = .ok p) (st : MeiliState V)
    (hpending : st.pending = none) : ∃ st', Passes s st rest st' := by
  induction rest generalizing st with
  | nil => exact ⟨st, .nil⟩
  | cons b rest ih =>
    obtain ⟨⟨p, hplan⟩, hrest⟩ := List.forall_mem_cons.mp h
    have hfresh : st.resumable (batchKey b) = none := by simp [MeiliState.resumable, hpending]
    by_cases horder : p.order = []
    · obtain ⟨st', hpasses⟩ := ih hrest st hpending
      exact ⟨st', .cons (allSucceed .finished) (process_silent _ ⟨p, hplan, horder⟩ fun _ => hfresh) hpasses⟩
    · obtain ⟨indexes, tasks, hall, hprocess⟩ := process_allSucceed .finished ⟨p, hplan, horder⟩ st hfresh
      rw [await_succeeded rfl hall] at hprocess
      obtain ⟨st', hpasses⟩ := ih hrest { indexes, pending := none } rfl
      exact ⟨st', .cons (allSucceed .finished) hprocess hpasses⟩

/-- A later batch is attempted and its wait interrupted; in the pass the batch with
its key takes its tasks for its own. -/
theorem exists_skipping_pass {keys : String → String} (hkeys : s.config.KeyedBy keys) {batch : List (CDCEvent V)}
    (hbefore : ∀ b ∈ before, s.Silent b ∧ (b ≠ [] → batchKey b ≠ batchKey batch)) (hne : batch ≠ []) (hb : b ∈ rest)
    (hkey : batchKey b = batchKey batch) (htasks : s.HasTasks b) (hplanned : ∀ b ∈ rest, ∃ p, s.plan b = .ok p)
    (c : Indexes V) : ∃ st st', s.attempt { indexes := c, pending := none } ⟨b, allSucceed (.interrupted .deadlineExceeded)⟩ = some st ∧
      Passes s st (before ++ batch :: rest) st' ∧
      ∀ index, st'.indexes index = applyAll (s.eventWrites index rest.flatten) (c index) := by
  let st := (s.process (allSucceed (.interrupted .deadlineExceeded)) b { indexes := c, pending := none }).2
  obtain ⟨tasks, hpending, hall⟩ := process_interrupted htasks c
  rw [hkey] at hpending
  obtain ⟨st', hrest⟩ := exists_passes hplanned { st with pending := none } rfl
  refine ⟨st, st', rfl, (passes_silent fun b' hb' => ⟨(hbefore b' hb').1, fun hne' => ?_⟩).append
    (.cons _ (process_resumes hne hpending hall) hrest), fun index => ?_⟩
  · simp [MeiliState.resumable, st, hpending, Ne.symm ((hbefore b' hb').2 hne')]
  · -- What the attempt wrote is written again by the rest of the sequence.
    have hattempted : Attempted s rest c st :=
      Attempted.process hkeys hb ⟨fun _ => Agree.refl _ _, by simp⟩ (process_spec s _ b _)
    rw [hrest.fresh hkeys rfl index]
    exact (hattempted.agree index).applyAll.symm

end Skip

/-- **Redelivery converges, exactly when no batch that matters is skipped.** After
any number of attempts at any of the batches, with any answers of the server, a
pass over the whole sequence in which every batch succeeds leaves every index with
the documents that applying the sequence once, event by event, leaves of what the
indexes held before the attempts; this for every content of the indexes if and
only if a batch that may take a later one's tasks for its own can be left out. -/
theorem replay_converges_iff (s : MeiliSink V) {settings : List (String × MeiliIndexSettings)}
    (hsettings : s.config.indexSettings = .ok settings) (batches : List (List (CDCEvent V))) :
    (∀ c st st', Reaches s.attempt (fun _ a => a.batch ∈ batches) { indexes := c, pending := none } st →
      Passes s st batches st' → st'.indexes = batches.flatten.foldl s.applyEvent c) ↔ s.HarmlessSkips batches := by
  obtain ⟨keys, hkeys⟩ := MeilisearchSinkConfig.keyedBy_of_indexSettings hsettings
  constructor
  · rintro hconverges before batch rest rfl hbefore ⟨b, hb, hkey, htasks⟩ hplanned c
    by_cases hne : batch = []
    · rw [hne, List.flatten_cons, List.nil_append]
    obtain ⟨st, st', hattempt, hpass, hindexes⟩ := exists_skipping_pass hkeys hbefore hne hb hkey htasks hplanned c
    have hall := hconverges c st st' (.tail .refl (by simp [hb]) hattempt) hpass
    funext index
    have hall := congrFun hall index
    rw [hindexes, s.applyEvent_eq, List.flatten_append, MeiliSink.eventWrites_append,
      eventWrites_flatten_silent fun b hb => (hbefore b hb).1, List.nil_append] at hall
    rw [s.applyEvent_eq, s.applyEvent_eq, hall]
  · intro hskips c st st' hattempts hpass
    have hst : Attempted s batches c st := by
      refine hattempts.invariant (fun st a st₁ hst hbatch hstep => ?_) ⟨fun _ => Agree.refl _ _, by simp⟩
      cases hstep
      exact hst.process hkeys hbatch (process_spec s a.fates a.batch st)
    funext index
    rw [s.applyEvent_eq]
    exact hpass.converges hkeys [] hskips (by simp) hst index

/-! ### Attempts in another order, and a silent batch -/

/-- The second task of an attempt is taken, but its answer is lost. -/
def secondLost : TaskFates where
  enqueue i := if i = 0 then .ok (0, .succeeded) else .error (none, .new "connection reset by peer", true)
  wait := .finished

def emptyIndexes : MeiliState ℕ := { indexes := fun _ _ => none, pending := none }

/-- Rows of a table that is not indexed. -/
def auditBatch : List (CDCEvent ℕ) :=
  [tableChange "0/3" "audit" .insert none (some [("id", some 1)]), tableChange "0/4" "audit" .insert none (some [("id", some 2)])]

/-- A row is inserted and updated, then deleted; another one is inserted. The last
batch has the key of the silent one. -/
def splitBatches : List (List (CDCEvent ℕ)) :=
  [auditBatch,
    [tableChange "0/1" "users" .insert none (some [("id", some 1), ("name", some 1)]),
      tableChange "0/2" "users" .update none (some [("id", some 1), ("name", some 2)])],
    [tableChange "0/3" "users" .delete (some [("id", some 1)]) none,
      tableChange "0/4" "users" .insert none (some [("id", some 2), ("name", some 1)])]]

theorem splitBatches_keysApart : sharedIndex.KeysApart (· ∈ splitBatches) := by
  have hsilent : sharedIndex.Silent auditBatch := ⟨_, rfl, rfl⟩
  have hkeys : ∀ b ∈ splitBatches, ∀ b' ∈ splitBatches, batchKey b = batchKey b' →
      b = b' ∨ b = auditBatch ∨ b' = auditBatch := by decide +kernel
  intro b b' hb hb' hkey htasks hnot
  rcases hkeys b hb b' hb' hkey with heq | rfl | rfl
  · exact heq
  · exact absurd htasks hsilent.not_hasTasks
  · exact absurd hsilent hnot

/-- The second batch is attempted, its last answer lost, and then the third one
with its wait interrupted. In the pass the silent batch waits for the third one's
tasks, which are enqueued again at its turn. -/
theorem replay_converges_split : ∃ st st', Reaches sharedIndex.attempt (fun _ a => a.batch ∈ splitBatches) emptyIndexes st ∧
    st.pending.isSome = true ∧ Passes sharedIndex st splitBatches st' ∧
    st'.indexes = splitBatches.flatten.foldl sharedIndex.applyEvent emptyIndexes.indexes := by
  let st₁ := (sharedIndex.process secondLost (splitBatches[1]) emptyIndexes).2
  let st₂ := (sharedIndex.process (allSucceed (.interrupted .deadlineExceeded)) (splitBatches[2]) st₁).2
  let st₃ := (sharedIndex.process (allSucceed .finished) (splitBatches[0]) st₂).2
  let st₄ := (sharedIndex.process (allSucceed .finished) (splitBatches[1]) st₃).2
  let st₅ := (sharedIndex.process (allSucceed .finished) (splitBatches[2]) st₄).2
  have hfirst : Reaches sharedIndex.attempt (fun _ a => a.batch ∈ splitBatches) emptyIndexes st₁ :=
    .tail (a := ⟨splitBatches[1], secondLost⟩) .refl (List.getElem_mem _) rfl
  have hattempts : Reaches sharedIndex.attempt (fun _ a => a.batch ∈ splitBatches) emptyIndexes st₂ :=
    .tail (a := ⟨splitBatches[2], allSucceed (.interrupted .deadlineExceeded)⟩) hfirst (List.getElem_mem _) rfl
  have hpass : Passes sharedIndex st₂ splitBatches st₅ := by
    show Passes sharedIndex st₂ [splitBatches[0], splitBatches[1], splitBatches[2]] st₅
    have hsilent : sharedIndex.process (allSucceed .finished) (splitBatches[0]) st₂ = (none, st₃) :=
      Prod.ext (by decide +kernel) rfl
    have hsecond : sharedIndex.process (allSucceed .finished) (splitBatches[1]) st₃ = (none, st₄) :=
      Prod.ext (by decide +kernel) rfl
    exact .cons _ hsilent (.cons _ hsecond (.cons (allSucceed .finished) (Prod.ext (by decide +kernel) rfl) .nil))
  cases hsettings : sharedIndex.config.indexSettings with
  | error err =>
    have haccepted : sharedIndex.config.indexSettings.isOk = true := by decide
    rw [hsettings] at haccepted
    cases haccepted
  | ok settings =>
    exact ⟨st₂, st₅, hattempts, by decide +kernel, hpass,
      (replay_converges_iff sharedIndex hsettings splitBatches).mpr splitBatches_keysApart.harmlessSkips _ _ _ hattempts hpass⟩

/-! ### A batch with another batch's key -/

/-- Two rows of one COPY record, in batches of one: they come with one identifier,
so the batches have one key. -/
def copyBatches : List (List (CDCEvent ℕ)) :=
  [[tableChange "0/10" "users" .insert none (some [("id", some 1), ("name", some 1)])],
    [tableChange "0/10" "users" .insert none (some [("id", some 2), ("name", some 2)])]]

/-- After an attempt at the second batch whose wait was interrupted, the first
batch waits for the second one's task and is never sent. -/
theorem shared_key_skips_batch :
    ∃ st st', Reaches sharedIndex.attempt (fun _ a => a.batch ∈ copyBatches) emptyIndexes st ∧
      Passes sharedIndex st copyBatches st' ∧ (st'.indexes "people" "1").isSome = false ∧
      (copyBatches.flatten.foldl sharedIndex.applyEvent emptyIndexes.indexes "people" "1").isSome = true := by
  let st₁ := (sharedIndex.process (allSucceed (.interrupted .deadlineExceeded)) (copyBatches[1]) emptyIndexes).2
  let st₂ := (sharedIndex.process (allSucceed .finished) (copyBatches[0]) st₁).2
  let st₃ := (sharedIndex.process (allSucceed .finished) (copyBatches[1]) st₂).2
  refine ⟨st₁, st₃, ?_, ?_, by decide +kernel, by decide +kernel⟩
  · exact Reaches.tail (a := ⟨copyBatches[1], allSucceed (.interrupted .deadlineExceeded)⟩) .refl (List.getElem_mem _) rfl
  · show Passes sharedIndex st₁ [copyBatches[0], copyBatches[1]] st₃
    have hfirst : sharedIndex.process (allSucceed .finished) (copyBatches[0]) st₁ = (none, st₂) :=
      Prod.ext (by decide +kernel) rfl
    exact .cons _ hfirst (.cons (allSucceed .finished) (Prod.ext (by decide +kernel) rfl) .nil)

end Gtc
