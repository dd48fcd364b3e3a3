/-
Whose tasks a Meilisearch `Process` reports.

`Process` returns nil when the tasks it waited for have all succeeded. They are
the tasks it enqueued, or those of an earlier call whose wait was interrupted
and whose batch has the same key: the number of events, the first and the last
event's identifier. A `Ledger` keeps every call, so that "enqueued by this call
or by an earlier one with the same events" can be said of it.
-/
import Gtc.Sink.MeiliReplay

namespace Gtc

open Lib

variable {V : Type}

/-! ## Calls -/

/-- A call of `Process`: the state it found, the batch, the server's answers and
what it returned. -/
structure MeiliCall (V : Type) where
  before : MeiliState V
  batch : List (CDCEvent V)
  fates : TaskFates
  result : Option Err

structure Ledger (V : Type) where
  state : MeiliState V
  calls : List (MeiliCall V) := []

/-- One call, recorded. -/
def MeiliSink.record (s : MeiliSink V) (l : Ledger V) (a : MeiliAttempt V) : Option (Ledger V) :=
  some
    { state := (s.process a.fates a.batch l.state).2
      calls := l.calls ++ [⟨l.state, a.batch, a.fates, (s.process a.fates a.batch l.state).1⟩] }

/-- The tasks that a call enqueued, if it enqueued all it had planned. -/
def MeiliSink.enqueued (s : MeiliSink V) (c : MeiliCall V) : List (EnqueuedTask V) :=
  match c.before.resumable (batchKey c.batch), s.plan c.batch with
  | none, .ok p =>
    match (enqueueTasks s c.fates 0 p.tasks c.before.indexes).1 with
    | .ok tasks => tasks
    | .error _ => []
  | _, _ => []

/-- The call stands for its own batch: if it returned nil, every task of the
batch's plan was enqueued by it, or by an earlier call with the same events, and
all have finished, this one with success. -/
def MeiliSink.Accounts (s : MeiliSink V) (earlier : List (MeiliCall V)) (c : MeiliCall V) : Prop :=
  c.result = none → ∃ p, s.plan c.batch = .ok p ∧ ∀ task ∈ p.tasks, c.fates.wait = .finished ∧
    ∃ c' ∈ earlier ++ [c], c'.batch = c.batch ∧ ∃ t ∈ s.enqueued c', (t.index, t.run) = task ∧ t.result = .succeeded

section Calls

variable {s : MeiliSink V}

variable {p : BatchPlan V} {fates : TaskFates} {st : MeiliState V} {events : List (CDCEvent V)}

theorem tasks_of_order_nil (h : p.order = []) : p.tasks = [] := by
  simp [BatchPlan.tasks, h]

/-- A task is enqueued for every task of the plan, in order. -/
theorem enqueueTasks_ok {i : ℕ} {tasks : List (String × MeiliRun V)} {c : Indexes V}
    {enqueued : List (EnqueuedTask V)} (h : (enqueueTasks s fates i tasks c).1 = .ok enqueued) :
    enqueued.map (fun t => (t.index, t.run)) = tasks := by
  induction tasks generalizing i c enqueued with
  | nil =>
    cases h
    rfl
  | cons task tasks ih =>
    obtain ⟨index, run⟩ := task
    cases hfate : fates.enqueue i with
    | error refused => simp [enqueueTasks, hfate] at h
    | ok answer =>
      simp only [enqueueTasks, hfate, map_eq_ok] at h
      obtain ⟨rest, hrest, rfl⟩ := h
      simp [ih hrest]

theorem await_fst (st : MeiliState V) (key : String) (tasks : List (EnqueuedTask V)) (wait : TaskWait) :
    (st.await key tasks wait).1 = awaitTasks tasks wait := by
  unfold MeiliState.await
  cases awaitTasks tasks wait <;> rfl

theorem await_pending {key : String} {tasks : List (EnqueuedTask V)} {wait : TaskWait} {q : Inflight V}
    (h : (st.await key tasks wait).2.pending = some q) : st.pending = some q := by
  have hforget : (st.forget key).pending = some q → st.pending = some q := by
    unfold MeiliState.forget
    split
    · split
      · intro hnone; cases hnone
      · exact id
    · exact id
  unfold MeiliState.await at h
  split at h
  · exact hforget h
  · simp only at h
    split at h
    · exact hforget h
    · exact h

theorem MeiliSink.Silent.accounts {c : MeiliCall V} (h : s.Silent c.batch) (earlier : List (MeiliCall V)) : s.Accounts earlier c := by
  obtain ⟨p, hplan, horder⟩ := h
  exact fun _ => ⟨p, hplan, by simp [tasks_of_order_nil horder]⟩

/-- **How a `Process` can return nil**: there is nothing to enqueue, or the tasks
of the interrupted wait have all succeeded, or its own have. -/
theorem process_eq_none (h : (s.process fates events st).1 = none) :
    s.Silent events ∨
      (∃ q, st.pending = some q ∧ q.key = batchKey events ∧ fates.wait = .finished ∧ ∀ t ∈ q.tasks, t.result = .succeeded) ∨
      st.resumable (batchKey events) = none ∧ ∃ p tasks, s.plan events = .ok p ∧
        (enqueueTasks s fates 0 p.tasks st.indexes).1 = .ok tasks ∧ fates.wait = .finished ∧
        ∀ t ∈ tasks, t.result = .succeeded := by
  unfold MeiliSink.process at h
  split at h
  · rename_i hempty
    rw [List.isEmpty_iff.mp hempty]
    exact .inl ⟨{}, rfl, rfl⟩
  · simp only at h
    split at h
    · rename_i tasks hresume
      obtain ⟨q, hq, hkey, rfl⟩ := resumable_eq_some hresume
      rw [await_fst] at h
      obtain ⟨hwait, hall⟩ := awaitTasks_eq_none h
      exact .inr (.inl ⟨q, hq, hkey, hwait, hall⟩)
    · rename_i hresume
      split at h
      · cases h
      · rename_i p hplan
        split at h
        · rename_i horder
          exact .inl ⟨p, hplan, List.isEmpty_iff.mp horder⟩
        · split at h
          · cases h
          · rename_i tasks indexes henqueue
            rw [await_fst] at h
            obtain ⟨hwait, hall⟩ := awaitTasks_eq_none h
            exact .inr (.inr ⟨hresume, p, tasks, hplan, by rw [henqueue], hwait, hall⟩)

/-- What a `Process` leaves to be resumed: what was there before, or the tasks it
enqueued. -/
theorem process_pending {q : Inflight V} (h : (s.process fates events st).2.pending = some q) :
    st.pending = some q ∨ q.key = batchKey events ∧ st.resumable (batchKey events) = none ∧
      ∃ p, s.plan events = .ok p ∧ p.order ≠ [] ∧ (enqueueTasks s fates 0 p.tasks st.indexes).1 = .ok q.tasks := by
  unfold MeiliSink.process at h
  split at h
  · exact .inl h
  · simp only at h
    split at h
    · exact .inl (await_pending h)
    · rename_i hresume
      split at h
      · exact .inl h
      · rename_i p hplan
        split at h
        · exact .inl h
        · rename_i horder
          split at h
          · exact .inl h
          · rename_i tasks indexes henqueue
            cases await_pending h
            exact .inr ⟨rfl, hresume, p, hplan, by simpa using horder, by rw [henqueue]⟩

/-- Every index of a plan has a run. -/
theorem plan_runs_ne_nil (h : s.plan events = .ok p) : ∀ index, p.runs index ≠ some [] := by
  refine MeiliSink.plan_induction (P := fun _ p => ∀ index, p.runs index ≠ some []) (by simp) ?_ h
  intro events p event p' hp hevent index
  rcases planEvent_cases hevent with ⟨-, rfl⟩ | ⟨index', kind, f, w, -, -, -, rfl⟩
  · exact hp index
  · by_cases hindex : index = index'
    · subst hindex
      simp only [BatchPlan.inRun, Function.update_self, ne_eq, Option.some.injEq]
      split
      · split <;> simp
      · simp
    · simpa [BatchPlan.inRun, hindex] using hp index

theorem tasks_ne_nil (h : s.plan events = .ok p) (horder : p.order ≠ []) : p.tasks ≠ [] := by
  obtain ⟨index, order, hindex⟩ := List.exists_cons_of_ne_nil horder
  have hsome := ((MeiliSink.plan_order h).mem index).mp (by simp [hindex])
  obtain ⟨runs, hruns⟩ := Option.isSome_iff_exists.mp hsome
  have hne : runs ≠ [] := by
    rintro rfl
    exact plan_runs_ne_nil h index hruns
  simp [BatchPlan.tasks, hindex, hruns, hne]

end Calls

/-! ## Every run of calls -/

section Runs

variable (s : MeiliSink V) (B : List (CDCEvent V) → Prop)

/-- The calls so far stand for their own batches, and what may be resumed is what
one of them enqueued. -/
structure Books (l : Ledger V) : Prop where
  each : Each s.Accounts l.calls
  pending : ∀ q, l.state.pending = some q → ∃ c ∈ l.calls, B c.batch ∧ q.key = batchKey c.batch ∧ q.tasks = s.enqueued c ∧
    ∃ p, s.plan c.batch = .ok p ∧ p.order ≠ [] ∧ q.tasks.map (fun t => (t.index, t.run)) = p.tasks

variable {s B}

theorem Books.accounts {l : Ledger V} (h : Books s B l) (hapart : s.KeysApart B) {a : MeiliAttempt V} (ha : B a.batch) :
    s.Accounts l.calls ⟨l.state, a.batch, a.fates, (s.process a.fates a.batch l.state).1⟩ := by
  intro hnone
  -- a task of the plan is one of the tasks, and those are what some call enqueued
  have hown : ∀ {p : BatchPlan V} {tasks : List (EnqueuedTask V)}, tasks.map (fun t => (t.index, t.run)) = p.tasks →
      (∀ t ∈ tasks, t.result = .succeeded) → ∀ task ∈ p.tasks, ∃ t ∈ tasks, (t.index, t.run) = task ∧ t.result = .succeeded := by
    intro p tasks hmap hall task htask
    rw [← hmap] at htask
    obtain ⟨t, ht, heq⟩ := List.mem_map.mp htask
    exact ⟨t, ht, heq, hall t ht⟩
  rcases process_eq_none hnone with hquiet | ⟨q, hq, hkey, hwait, hall⟩ | ⟨hresume, p, tasks, hplan, henqueue, hwait, hall⟩
  · exact MeiliSink.Silent.accounts hquiet l.calls hnone
  · by_cases hquiet : s.Silent a.batch
    · exact MeiliSink.Silent.accounts hquiet l.calls hnone
    · obtain ⟨c, hc, hB, hckey, htasks, p, hplan, horder, hmap⟩ := h.pending q hq
      obtain heq : c.batch = a.batch := hapart _ _ hB ha (hckey.symm.trans hkey) ⟨p, hplan, horder⟩ hquiet
      refine ⟨p, heq ▸ hplan, fun task htask => ⟨hwait, c, List.mem_append_left _ hc, heq, ?_⟩⟩
      rw [← htasks]
      exact hown hmap hall task htask
  · refine ⟨p, hplan, fun task htask => ⟨hwait, _, List.mem_append_right _ (List.mem_singleton_self _), rfl, ?_⟩⟩
    have hthis : s.enqueued ⟨l.state, a.batch, a.fates, (s.process a.fates a.batch l.state).1⟩ = tasks := by
      simp [MeiliSink.enqueued, hresume, hplan, henqueue]
    rw [hthis]
    exact hown (enqueueTasks_ok henqueue) hall task htask

theorem Books.record {l l' : Ledger V} (h : Books s B l) (hapart : s.KeysApart B) {a : MeiliAttempt V} (ha : B a.batch)
    (hstep : s.record l a = some l') : Books s B l' := by
  cases hstep
  refine ⟨each_concat.mpr ⟨h.each, h.accounts hapart ha⟩, fun q hq => ?_⟩
  rcases process_pending hq with hold | ⟨hkey, hresume, p, hplan, horder, henqueue⟩
  · obtain ⟨c, hc, hrest⟩ := h.pending q hold
    exact ⟨c, List.mem_append_left _ hc, hrest⟩
  · refine ⟨_, List.mem_append_right _ (List.mem_singleton_self _), ha, hkey, ?_, p, hplan, horder, enqueueTasks_ok henqueue⟩
    simp [MeiliSink.enqueued, hresume, hplan, henqueue]

/-- A call that returned nil for a batch nobody enqueued. -/
theorem not_accounts {earlier : List (MeiliCall V)} {c : MeiliCall V} (hnone : c.result = none) (hquiet : ¬ s.Silent c.batch)
    (hown : s.enqueued c = []) (hearlier : ∀ c' ∈ earlier, c'.batch ≠ c.batch) : ¬ s.Accounts earlier c := by
  intro haccounts
  obtain ⟨p, hplan, htasks⟩ := haccounts hnone
  have horder : p.order ≠ [] := fun horder => hquiet ⟨p, hplan, horder⟩
  obtain ⟨task, rest, htask⟩ := List.exists_cons_of_ne_nil (tasks_ne_nil hplan horder)
  obtain ⟨-, c', hc, hbatch, t, ht, -⟩ := htasks task (by simp [htask])
  rcases List.mem_append.mp hc with hc | hc
  · exact hearlier c' hc hbatch
  · rw [List.mem_singleton.mp hc, hown] at ht
    cases ht

/-- **`Process` never reports another batch's tasks, exactly when keys tell
batches apart**: every run of calls on batches of a given kind accounts for each
of its calls if and only if no two of these batches have one key, of which one
is planned as some tasks and the other is not planned as none. -/
theorem process_reports_own_tasks_iff (s : MeiliSink V) (B : List (CDCEvent V) → Prop) :
    (∀ indexes l, Reaches s.record (fun _ a => B a.batch) { state := { indexes, pending := none } } l → Each s.Accounts l.calls) ↔
      s.KeysApart B := by
  constructor
  · intro hall b b' hb hb' hkey htasks hquiet
    by_contra hne
    obtain ⟨tasks, hpending, hsucceeded⟩ := process_interrupted htasks fun _ _ => none
    have hne' : b' ≠ [] := by
      rintro rfl
      exact hquiet ⟨{}, rfl, rfl⟩
    rw [hkey] at hpending
    -- the first call is interrupted, the second takes over its tasks
    let st : MeiliState V := { indexes := fun _ _ => none, pending := none }
    let first : MeiliAttempt V := ⟨b, allSucceed (.interrupted .deadlineExceeded)⟩
    let second : MeiliAttempt V := ⟨b', allSucceed .finished⟩
    let st₁ := (s.process first.fates b st).2
    have hrun : Reaches s.record (fun _ a => B a.batch) { state := st }
        { state := (s.process second.fates b' st₁).2
          calls := [⟨st, b, first.fates, (s.process first.fates b st).1⟩, ⟨st₁, b', second.fates, (s.process second.fates b' st₁).1⟩] } :=
      .tail (a := second) (.tail (a := first) .refl hb rfl) hb' rfl
    have hresume : st₁.resumable (batchKey b') = some tasks := by simp only [MeiliState.resumable, st₁, first, st, hpending, if_true]
    refine not_accounts (congrArg Prod.fst (process_resumes hne' hpending hsucceeded)) hquiet ?_ ?_ (hall _ _ hrun [_] _ [] rfl)
    · simp [MeiliSink.enqueued, hresume]
    · simpa using hne
  · intro hapart indexes l hreach
    have hbooks : Books s B l :=
      hreach.invariant (fun _ _ _ h ha hstep => h.record hapart ha hstep) ⟨Each.nil _, by simp⟩
    exact hbooks.each

end Runs

/-! ### A dead letter retried -/

/-- Two rows of one COPY record, which come with one identifier. The second one
is in the dead-letter queue. -/
def copiedRow (id : ℕ) : CDCEvent ℕ := tableChange "0/10" "users" .insert none (some [("id", some id), ("name", some id)])

/-- The wait for the first row is interrupted, and then the second row is retried:
`Process` waits for the first row's task and returns nil, so that the dead letter
is removed, and the second row was never enqueued. -/
theorem retried_row_not_enqueued :
    ∃ l, Reaches sharedIndex.record (fun _ a => a.batch = [copiedRow 1] ∨ a.batch = [copiedRow 2]) { state := emptyIndexes } l ∧
      ∃ c₁ c₂, l.calls = [c₁, c₂] ∧ c₁.batch = [copiedRow 1] ∧ c₂.batch = [copiedRow 2] ∧ c₂.result = none ∧
        sharedIndex.enqueued c₂ = [] ∧ sharedIndex.HasTasks [copiedRow 2] ∧ (l.state.indexes "people" "2").isSome = false ∧
        ¬ Each sharedIndex.Accounts l.calls := by
  let first : MeiliAttempt ℕ := ⟨[copiedRow 1], allSucceed (.interrupted .deadlineExceeded)⟩
  let second : MeiliAttempt ℕ := ⟨[copiedRow 2], allSucceed .finished⟩
  let st := (sharedIndex.process first.fates first.batch emptyIndexes).2
  let c₁ : MeiliCall ℕ := ⟨emptyIndexes, [copiedRow 1], first.fates, (sharedIndex.process first.fates first.batch emptyIndexes).1⟩
  let c₂ : MeiliCall ℕ := ⟨st, [copiedRow 2], second.fates, (sharedIndex.process second.fates second.batch st).1⟩
  have hnone : c₂.result = none := by decide +kernel
  have hown : sharedIndex.enqueued c₂ = [] := by
    obtain ⟨tasks, hresume⟩ := Option.isSome_iff_exists.mp
      (show (c₂.before.resumable (batchKey c₂.batch)).isSome = true from by decide +kernel)
    simp only [MeiliSink.enqueued, hresume]
  have htasks : sharedIndex.HasTasks [copiedRow 2] := ⟨_, rfl, by decide⟩
  refine ⟨{ state := (sharedIndex.process second.fates second.batch st).2, calls := [c₁, c₂] }, ?_, c₁, c₂, rfl, rfl, rfl, hnone,
    hown, htasks, by decide +kernel, fun heach => ?_⟩
  · exact .tail (a := second) (.tail (a := first) .refl (.inl rfl) rfl) (.inr rfl) rfl
  · obtain ⟨p, hplan, horder⟩ := htasks
    refine not_accounts hnone ?_ hown (by decide) (heach [c₁] c₂ [] rfl)
    rintro ⟨p', hplan', hnil⟩
    rw [show c₂.batch = [copiedRow 2] from rfl, hplan] at hplan'
    cases hplan'
    exact horder hnil

end Gtc
