/-
`cdcService.Stop` against the `handleBatch` calls that are under way.

A call adds itself to the wait group before it looks at `shutdown`; `Stop`
closes `shutdown` before it waits. So a call that finds `shutdown` open was
counted when `Stop` began to wait, and is through when the wait ends
(`Inv.drained`). From then on no sink is in a `Process` and none is entered
(`no_delivery_after_shutdown`), and what a call did that returned nil is one of
the executions of `HandleBatch` (`Inv.calls`).

`WaitGroup.Wait` panics when it is woken and finds the group in use again; a
panic ends the process.
-/
import Gtc.Lib.History
import Gtc.Lib.Threads
import Gtc.Sink.Slices

namespace Gtc.Service

open Lib

variable {V : Type}

/-! ## One sink of one batch -/

/-- Where the delivery of a batch to one sink is. -/
inductive SinkPoint (V : Type) where
  /-- `Process` is to be called for the first of these. -/
  | ready (slices : List (List (CDCEvent V)))
  /-- In `Process`, with these to follow. -/
  | inside (p : SinkM V (Option Err)) (slices : List (List (CDCEvent V)))
  | done (result : Option Err)

def SinkPoint.result : SinkPoint V → Option (Option Err)
  | .done result => some result
  | _ => none

def SinkPoint.after : Option Err → List (List (CDCEvent V)) → SinkPoint V
  | some err, _ => .done (some err)
  | none, [] => .done none
  | none, slices => .ready slices

inductive SinkAct (V : Type) where
  | start
  /-- The operation that is asked for gets its answer. -/
  | answer (world : (o : Op V) → o.Res)
  | finish

/-- What is seen of a sink. -/
inductive SinkEntry (V : Type) where
  /-- `Process` was called. -/
  | started (events : List (CDCEvent V))
  | asked (x : (sinkSig V).Event)
  /-- `Process` returned. -/
  | ended (result : Option Err)

def SinkPoint.step (sink : Sink V) : SinkPoint V → SinkAct V → Option (SinkEntry V × SinkPoint V)
  | .ready (slice :: rest), .start => some (.started slice, .inside (sink.process slice) rest)
  | .inside (.ask o k) rest, .answer world => some (.asked ⟨o, world o⟩, .inside (k (world o)) rest)
  | .inside (.ret result) rest, .finish => some (.ended result, .after result rest)
  | _, _ => none

/-! ## The service -/

/-- Where a `handleBatch` call is. -/
inductive CallPoint (V : Type) where
  | called
  /-- `wg.Add(1)` is done. -/
  | added
  /-- In `ProcessBatch`, with each sink's place. -/
  | processing (points : List (SinkPoint V))
  /-- `wg.Done()` is to come. -/
  | finishing (result : Option Err)
  | returned (result : Option Err)

structure Call (V : Type) where
  events : List (CDCEvent V)
  point : CallPoint V

inductive StopPoint where
  /-- `Stop` is not called. -/
  | running
  /-- `shutdown` is closed. -/
  | closed
  /-- In `wg.Wait()`. -/
  | waiting
  /-- The counter has reached zero, and `Wait` is woken. -/
  | released
  | waited
  | readerStopped
  /-- In `registry.ShutdownAll`. -/
  | shuttingDown
  | stopped
deriving DecidableEq, Repr

inductive Entry (V : Type) where
  | sink (call sink : ℕ) (x : SinkEntry V)
  /-- `Stop` has called `registry.ShutdownAll`. -/
  | shutdownAll

structure State (V : Type) where
  /-- `shutdown` is closed. -/
  shutdown : Bool := false
  /-- The counter of `wg`. -/
  counter : ℕ := 0
  stop : StopPoint := .running
  calls : List (Call V) := []
  panicked : Bool := false
  log : List (Entry V) := []

def State.move (s : State V) (i : ℕ) (c : Call V) (point : CallPoint V) : State V :=
  { s with calls := s.calls.set i { c with point } }

section Steps

variable (cfg : CDCServiceConfig) (sinks : List (Sink V))

/-- The next step of `handleBatch`, outside the sinks. -/
def callStep (s : State V) (i : ℕ) (c : Call V) : Option (State V) :=
  match c.point with
  | .called => some { s.move i c .added with counter := s.counter + 1 }
  | .added =>
    if s.shutdown then some (s.move i c (.finishing (some .shuttingDown)))
    else
      match admitEvents cfg c.events with
      | [] => some (s.move i c (.finishing none))
      | events => some (s.move i c (.processing (sinks.map fun sink => .ready (slices sink events))))
  | .processing points =>
    if ∀ point ∈ points, point.result.isSome = true then
      some (s.move i c (.finishing (batchError sinks (points.filterMap SinkPoint.result))))
    else none
  | .finishing result =>
    some { s.move i c (.returned result) with
      counter := s.counter - 1
      stop := if s.counter = 1 ∧ s.stop = .waiting then .released else s.stop }
  | .returned _ => none

/-- May the sink at `j` run? Without `ParallelSinks`, when those before it are
done. -/
def Turn (points : List (SinkPoint V)) (j : ℕ) : Prop :=
  (cfg.parallelSinks = true ∧ 1 < sinks.length) ∨ ∀ point ∈ points.take j, point.result.isSome = true

instance (points : List (SinkPoint V)) (j : ℕ) : Decidable (Turn cfg sinks points j) :=
  inferInstanceAs (Decidable (_ ∨ _))

/-- A step of the sink at `j` in the call's `ProcessBatch`. -/
def sinkStep (s : State V) (i j : ℕ) (c : Call V) (a : SinkAct V) : Option (State V) :=
  match c.point with
  | .processing points => do
    let sink ← sinks[j]?
    let point ← points[j]?
    if Turn cfg sinks points j then
      let (x, point) ← point.step sink a
      return { s.move i c (.processing (points.set j point)) with log := s.log ++ [.sink i j x] }
    else none
  | _ => none

/-- The next step of `Stop`, whose context does not expire. -/
def stopStep (s : State V) : Option (State V) :=
  match s.stop with
  | .running => some { s with shutdown := true, stop := .closed }
  | .closed => some { s with stop := if s.counter = 0 then .waited else .waiting }
  | .waiting => none
  | .released => some (if s.counter = 0 then { s with stop := .waited } else { s with panicked := true })
  | .waited => some { s with stop := .readerStopped }
  | .readerStopped => some { s with stop := .shuttingDown, log := s.log ++ [Entry.shutdownAll] }
  | .shuttingDown => some { s with stop := .stopped }
  | .stopped => none

inductive Act (V : Type) where
  /-- The reader calls `handleBatch`. -/
  | call (events : List (CDCEvent V))
  | go (i : ℕ)
  | sink (i j : ℕ) (a : SinkAct V)
  | stop

def step (s : State V) (a : Act V) : Option (State V) :=
  if s.panicked then none
  else
    match a with
    | .call events => some { s with calls := s.calls ++ [⟨events, .called⟩] }
    | .go i => s.calls[i]?.bind (callStep cfg sinks s i)
    | .sink i j a => s.calls[i]?.bind fun c => sinkStep cfg sinks s i j c a
    | .stop => stopStep s

end Steps

/-! ## What a call has done -/

/-- What the call at `i` has asked of each sink. -/
def askedBy (i : ℕ) : Entry V → Option (ℕ × (sinkSig V).Event)
  | .sink call sink (.asked x) => if call = i then some (sink, x) else none
  | _ => none

def callTrace (i : ℕ) (log : List (Entry V)) : List (ℕ × (sinkSig V).Event) := log.filterMap (askedBy i)

/-- What is left to do for a sink. -/
def SinkPoint.program (sink : Sink V) : SinkPoint V → SinkM V (Option Err)
  | .ready slices => processAll sink slices
  | .inside p slices => do
    match ← p with
    | some err => return some err
    | none => processAll sink slices
  | .done result => .ret result

/-- A sink's step is a step of its program. -/
theorem SinkPoint.step_program {sink : Sink V} {point point' : SinkPoint V} {a : SinkAct V} {x : SinkEntry V}
    (h : point.step sink a = some (x, point')) :
    (∃ e, x = .asked e ∧ Steps (point.program sink) [e] (point'.program sink)) ∨
      (∀ e, x ≠ .asked e) ∧ point'.program sink = point.program sink := by
  unfold SinkPoint.step at h
  split at h
  · cases h
    exact .inr ⟨fun e he => (by cases he), rfl⟩
  · cases h
    exact .inl ⟨_, rfl, .cons .nil⟩
  · next result rest =>
    cases h
    refine .inr ⟨fun e he => (by cases he), ?_⟩
    rcases result with _ | err
    · cases rest <;> rfl
    · rfl
  · cases h

/-- What is known of a call at its point, from what it has asked. -/
def CallPoint.Accurate (cfg : CDCServiceConfig) (sinks : List (Sink V)) (events : List (CDCEvent V))
    (t : List (ℕ × (sinkSig V).Event)) : CallPoint V → Prop
  | .called | .added => t = []
  | .processing points =>
    admitEvents cfg events ≠ [] ∧ points.length = sinks.length ∧ (∀ x ∈ t, x.1 < sinks.length) ∧
      (∀ j sink point, sinks[j]? = some sink → points[j]? = some point →
        Steps (deliver sink (admitEvents cfg events)) (ofIndex j t) (point.program sink)) ∧
      ((cfg.parallelSinks = true ∧ 1 < sinks.length) ∨
        t.Pairwise (·.1 ≤ ·.1) ∧ ∀ x ∈ t, ∀ point ∈ points.take x.1, point.result.isSome = true)
  | .finishing result | .returned result => HandleBatch cfg sinks events t result

/-! ## One call, step by step -/

section Accurate

variable {cfg : CDCServiceConfig} {sinks : List (Sink V)} {events : List (CDCEvent V)}
  {t : List (ℕ × (sinkSig V).Event)} {points : List (SinkPoint V)}

theorem accurate_start (hne : admitEvents cfg events ≠ []) :
    (CallPoint.processing (sinks.map fun sink => .ready (slices sink (admitEvents cfg events)))).Accurate cfg sinks
      events [] := by
  refine ⟨hne, by simp, by simp, fun j sink point hsink hpoint => ?_, .inr ⟨.nil, by simp⟩⟩
  rw [List.getElem?_map, hsink] at hpoint
  cases hpoint
  rw [deliver_eq]
  exact .nil

theorem SinkPoint.result_of_step {sink : Sink V} {point : SinkPoint V} {a : SinkAct V} {x : SinkEntry V × SinkPoint V}
    (h : point.step sink a = some x) : point.result = none := by
  cases point with
  | done result => cases a <;> cases h
  | ready | inside => rfl

theorem accurate_sink {j : ℕ} {sink : Sink V} {point point' : SinkPoint V} {a : SinkAct V} {x : SinkEntry V}
    (h : (CallPoint.processing points).Accurate cfg sinks events t) (hsink : sinks[j]? = some sink)
    (hpoint : points[j]? = some point) (hturn : Turn cfg sinks points j) (hstep : point.step sink a = some (x, point'))
    (i : ℕ) :
    (CallPoint.processing (points.set j point')).Accurate cfg sinks events (t ++ (askedBy i (.sink i j x)).toList) := by
  obtain ⟨hne, hlen, hindex, hsteps, horder⟩ := h
  have hj : j < sinks.length := (List.getElem?_eq_some_iff.mp hsink).1
  have hnew : ∀ y ∈ (askedBy i (Entry.sink i j x)).toList, y.1 = j := by
    intro y hy
    cases x with
    | asked e => simp [askedBy] at hy; rw [hy]
    | started | ended => simp [askedBy] at hy
  refine ⟨hne, by simpa using hlen, fun y hy => ?_, fun k sink' q hsink' hq => ?_, ?_⟩
  · rcases List.mem_append.mp hy with hy | hy
    · exact hindex y hy
    · rw [hnew y hy]; exact hj
  · by_cases hkj : j = k
    · subst hkj
      rw [hsink] at hsink'
      cases hsink'
      rw [List.getElem?_set_self (by omega)] at hq
      cases hq
      have hbefore := hsteps j sink point hsink hpoint
      rcases SinkPoint.step_program hstep with ⟨e, rfl, he⟩ | ⟨hno, hsame⟩
      · have hasked : (askedBy i (Entry.sink i j (.asked e))).toList = [(j, e)] := by simp [askedBy]
        rw [hasked, ofIndex_append, ofIndex_cons_self]
        exact hbefore.snoc he
      · have hasked : (askedBy i (Entry.sink i j x)).toList = [] := by
          cases x with
          | asked e => exact absurd rfl (hno e)
          | started | ended => rfl
        rw [hasked, List.append_nil, hsame]
        exact hbefore
    · rw [List.getElem?_set_ne hkj] at hq
      have hother : ofIndex k (askedBy i (Entry.sink i j x)).toList = [] := by
        refine List.filterMap_eq_nil_iff.mpr fun y hy => ?_
        rw [hnew y hy, if_neg hkj]
      rw [ofIndex_append, hother, List.append_nil]
      exact hsteps k sink' q hsink' hq
  · rcases horder with hpar | ⟨hsorted, hdone⟩
    · exact .inl hpar
    rcases hturn with hpar | hbefore
    · exact .inl hpar
    -- A sink after `j` has asked for nothing yet: `j` is not done.
    have hle : ∀ y ∈ t, y.1 ≤ j := by
      intro y hy
      by_contra hlt
      have hmem : point ∈ points.take y.1 :=
        List.mem_of_getElem? (i := j) (by rw [List.getElem?_take_of_lt (by omega)]; exact hpoint)
      have hsome := hdone y hy point hmem
      rw [SinkPoint.result_of_step hstep] at hsome
      cases hsome
    refine .inr ⟨List.pairwise_append.mpr ⟨hsorted, ?_, fun y hy z hz => hnew z hz ▸ hle y hy⟩, fun y hy => ?_⟩
    · cases askedBy i (Entry.sink i j x) <;> simp
    · rcases List.mem_append.mp hy with hy | hy
      · rw [List.take_set_of_le (hle y hy)]
        exact hdone y hy
      · rw [hnew y hy, List.take_set_of_le (Nat.le_refl j)]
        exact hbefore

theorem eq_map_done : ∀ {points : List (SinkPoint V)}, (∀ point ∈ points, point.result.isSome = true) →
    points = (points.filterMap SinkPoint.result).map .done := by
  intro points h
  induction points with
  | nil => rfl
  | cons point points ih =>
    have hpoint := h point (by simp)
    cases point with
    | done result => simpa [SinkPoint.result] using ih fun p hp => h p (by simp [hp])
    | ready | inside => cases hpoint

/-- When all sinks are done, the call has executed `HandleBatch`. -/
theorem accurate_collect (h : (CallPoint.processing points).Accurate cfg sinks events t)
    (hall : ∀ point ∈ points, point.result.isSome = true) :
    HandleBatch cfg sinks events t (batchError sinks (points.filterMap SinkPoint.result)) := by
  obtain ⟨hne, hlen, hindex, hsteps, horder⟩ := h
  generalize hresults : points.filterMap SinkPoint.result = results
  have hpoints : points = results.map SinkPoint.done := hresults ▸ eq_map_done hall
  subst hpoints
  have hexec : ∀ j p, (sinks.map (deliver · (admitEvents cfg events)))[j]? = some p →
      ∃ r, results[j]? = some r ∧ Exec p (ofIndex j t) r := by
    intro j p hp
    rw [List.getElem?_map, Option.map_eq_some_iff] at hp
    obtain ⟨sink, hsink, rfl⟩ := hp
    have hj : j < results.length := by
      rw [← List.length_map, hlen]
      exact (List.getElem?_eq_some_iff.mp hsink).1
    refine ⟨results[j], List.getElem?_eq_getElem hj, Steps.exec ?_⟩
    exact hsteps j sink _ hsink (by rw [List.getElem?_map, List.getElem?_eq_getElem hj]; rfl)
  have hlen' : results.length = (sinks.map (deliver · (admitEvents cfg events))).length := by
    rwa [List.length_map] at hlen ⊢
  have hindex' : ∀ x ∈ t, x.1 < (sinks.map (deliver · (admitEvents cfg events))).length := by
    rwa [List.length_map]
  refine .processed hne ?_
  by_cases hpar : cfg.parallelSinks = true ∧ 1 < sinks.length
  · exact .parallel hpar.1 hpar.2 (par_of_exec hlen' hindex' hexec)
  · obtain ⟨hsorted, -⟩ := horder.resolve_left hpar
    exact .sequential hpar (inOrder_of_exec hlen' hindex' hsorted hexec)

end Accurate

/-! ## The invariant -/

/-- Is the call counted in the wait group? -/
def Call.counted (c : Call V) : Bool :=
  match c.point with
  | .called | .returned _ => false
  | .added | .processing _ | .finishing _ => true

def Call.isProcessing (c : Call V) : Bool :=
  match c.point with
  | .processing _ => true
  | _ => false

/-- The wait is over. -/
def StopPoint.drained : StopPoint → Bool
  | .running | .closed | .waiting => false
  | _ => true

/-- `ShutdownAll` is called. -/
def StopPoint.down : StopPoint → Bool
  | .shuttingDown | .stopped => true
  | _ => false

structure Inv (cfg : CDCServiceConfig) (sinks : List (Sink V)) (s : State V) : Prop where
  counter : s.counter = s.calls.countP Call.counted
  closed : s.shutdown = false ↔ s.stop = .running
  drained : s.stop.drained = true → ∀ c ∈ s.calls, c.isProcessing = false
  down : s.stop.down = false → Entry.shutdownAll ∉ s.log
  last : ∀ pre post, s.log = pre ++ Entry.shutdownAll :: post → post = []
  calls : ∀ i (c : Call V), s.calls[i]? = some c → c.point.Accurate cfg sinks c.events (callTrace i s.log)
  known : ∀ i, s.calls.length ≤ i → callTrace i s.log = []

section Inv

variable {cfg : CDCServiceConfig} {sinks : List (Sink V)} {s s' : State V}

theorem isProcessing_of_not_counted {c : Call V} (h : c.counted = false) : c.isProcessing = false := by
  unfold Call.counted at h
  unfold Call.isProcessing
  split at h
  · next hp => rw [hp]
  · next hp => rw [hp]
  all_goals cases h

/-- An empty wait group: nobody is processing. -/
theorem idle_of_counter {calls : List (Call V)} (h : calls.countP Call.counted = 0) :
    ∀ c ∈ calls, c.isProcessing = false := by
  intro c hc
  exact isProcessing_of_not_counted (by simpa using List.countP_eq_zero.mp h c hc)

theorem countP_move {i : ℕ} {c : Call V} (hi : s.calls[i]? = some c) (point : CallPoint V) :
    (s.move i c point).calls.countP Call.counted + c.counted.toNat =
      s.calls.countP Call.counted + (Call.counted { c with point }).toNat := by
  obtain ⟨hlt, hc⟩ := List.getElem?_eq_some_iff.mp hi
  have hpos : c.counted = true → 0 < s.calls.countP Call.counted := fun hcounted =>
    List.countP_pos_iff.mpr ⟨c, List.mem_of_getElem? hi, hcounted⟩
  rw [State.move, List.countP_set hlt, hc]
  cases hcc : c.counted with
  | false => cases Call.counted { c with point } <;> simp
  | true =>
    have := hpos hcc
    cases Call.counted { c with point } <;> simp <;> omega

theorem mem_move {i : ℕ} {c c' : Call V} {point : CallPoint V} (h : c' ∈ (s.move i c point).calls) :
    c' = { c with point } ∨ c' ∈ s.calls := (List.mem_or_eq_of_mem_set h).symm

/-- The calls after the one at `i` has moved. -/
theorem Inv.calls_move (h : Inv cfg sinks s) {i : ℕ} {c : Call V} (hi : s.calls[i]? = some c) (point : CallPoint V)
    {log : List (Entry V)} (hlog : ∀ k, k ≠ i → callTrace k log = callTrace k s.log)
    (hpoint : point.Accurate cfg sinks c.events (callTrace i log)) :
    (∀ k (c' : Call V), (s.move i c point).calls[k]? = some c' → c'.point.Accurate cfg sinks c'.events (callTrace k log)) ∧
      ∀ k, (s.move i c point).calls.length ≤ k → callTrace k log = [] := by
  have hlt : i < s.calls.length := (List.getElem?_eq_some_iff.mp hi).1
  refine ⟨fun k c' hk => ?_, fun k hk => ?_⟩
  · by_cases hki : i = k
    · subst hki
      rw [State.move, List.getElem?_set_self hlt] at hk
      cases hk
      exact hpoint
    · rw [State.move, List.getElem?_set_ne hki] at hk
      rw [hlog k (Ne.symm hki)]
      exact h.calls k c' hk
  · rw [State.move, List.length_set] at hk
    rw [hlog k (by omega)]
    exact h.known k hk

theorem inv_start : Inv cfg sinks ({} : State V) where
  counter := rfl
  closed := by simp
  drained := by simp
  down := by simp
  last := by simp
  calls := by simp
  known := by simp [callTrace]

theorem Inv.call (h : Inv cfg sinks s) (events : List (CDCEvent V)) :
    Inv cfg sinks { s with calls := s.calls ++ [⟨events, .called⟩] } where
  counter := by rw [h.counter]; simp [Call.counted]
  closed := h.closed
  drained hd c hc := by
    rcases List.mem_append.mp hc with hc | hc
    · exact h.drained hd c hc
    · rw [List.mem_singleton.mp hc]; rfl
  down := h.down
  last := h.last
  calls i c hc := by
    rcases Nat.lt_or_ge i s.calls.length with hlt | hge
    · exact h.calls i c (by rwa [List.getElem?_append_left hlt] at hc)
    · rw [List.getElem?_append_right hge] at hc
      rw [List.mem_singleton.mp (List.mem_of_getElem? hc)]
      exact h.known i hge
  known i hi := h.known i (by simp at hi; omega)

/-- A call moves outside the sinks, and stays counted. -/
theorem Inv.moveCounted (h : Inv cfg sinks s) {i : ℕ} {c : Call V} (hi : s.calls[i]? = some c) {point : CallPoint V}
    (hc : c.counted = true) (hpoint : Call.counted { c with point } = true)
    (hacc : point.Accurate cfg sinks c.events (callTrace i s.log))
    (hopen : Call.isProcessing { c with point } = true → s.stop.drained = false) : Inv cfg sinks (s.move i c point) where
  counter := by
    have hcount := countP_move hi point
    rw [hc, hpoint] at hcount
    exact h.counter.trans (by omega)
  closed := h.closed
  drained hd c' hc' := by
    rcases mem_move hc' with rfl | hc'
    · by_contra hp
      have := hopen (by simpa using hp)
      rw [show s.stop.drained = true from hd] at this
      cases this
    · exact h.drained hd c' hc'
  down := h.down
  last := h.last
  calls := (h.calls_move hi _ (fun _ _ => rfl) hacc).1
  known := (h.calls_move hi _ (fun _ _ => rfl) hacc).2

/-- A call returns, and is not counted any more. -/
theorem Inv.callReturn (h : Inv cfg sinks s) {i : ℕ} {c : Call V} (hi : s.calls[i]? = some c) {result : Option Err}
    (hpoint : c.point = .finishing result) (hstep : Service.callStep cfg sinks s i c = some s') : Inv cfg sinks s' := by
  have hacc := h.calls i c hi
  unfold Service.callStep at hstep
  rw [hpoint] at hstep hacc
  cases hstep
  have hmove := h.calls_move hi (.returned result) (fun _ _ => rfl) hacc
  have hcount := countP_move hi (.returned result)
  have hc : c.counted = true := by rw [Call.counted, hpoint]
  have hret : Call.counted { c with point := .returned result } = false := rfl
  rw [hc, hret, ← h.counter] at hcount
  simp only [Bool.toNat_true, Bool.toNat_false] at hcount
  have hcounter : s.counter - 1 = (s.move i c (.returned result)).calls.countP Call.counted := by omega
  by_cases hlast : s.counter = 1 ∧ s.stop = .waiting
  · -- The last one wakes `Wait`: nobody is counted any more.
    rw [if_pos hlast]
    exact {
      counter := hcounter
      closed := by simpa [State.move, hlast.2] using h.closed
      drained := fun _ => idle_of_counter (by rw [← hcounter, hlast.1])
      down := fun _ => h.down (by rw [hlast.2]; rfl)
      last := h.last
      calls := hmove.1
      known := hmove.2 }
  · rw [if_neg hlast]
    exact { h with
      counter := hcounter
      drained := fun hd c' hc' => (mem_move hc').elim (fun heq => heq ▸ rfl) (h.drained hd c')
      calls := hmove.1
      known := hmove.2 }

theorem Inv.callStep (h : Inv cfg sinks s) {i : ℕ} {c : Call V} (hi : s.calls[i]? = some c)
    (hstep : Service.callStep cfg sinks s i c = some s') : Inv cfg sinks s' := by
  have hacc := h.calls i c hi
  unfold Service.callStep at hstep
  cases hpoint : c.point with
  | called =>
    rw [hpoint] at hstep hacc
    cases hstep
    have hmove := h.calls_move hi .added (fun _ _ => rfl) hacc
    have hcount := countP_move hi .added
    have hc : c.counted = false := by rw [Call.counted, hpoint]
    rw [hc] at hcount
    exact { h with
      counter := by rw [h.counter]; exact hcount.symm
      drained := fun hd c' hc' => (mem_move hc').elim (fun heq => heq ▸ rfl) (h.drained hd c')
      calls := hmove.1
      known := hmove.2 }
  | added =>
    rw [hpoint] at hstep hacc
    have hc : c.counted = true := by rw [Call.counted, hpoint]
    have htrace : callTrace i s.log = [] := hacc
    dsimp only at hstep
    split at hstep
    · cases hstep
      refine h.moveCounted hi hc rfl ?_ fun hp => by cases hp
      rw [htrace]
      exact .shutdown
    · next hopen =>
      split at hstep
      · next hnone =>
        cases hstep
        refine h.moveCounted hi hc rfl ?_ fun hp => by cases hp
        rw [htrace]
        exact .nothing hnone
      · next hne =>
        cases hstep
        refine h.moveCounted hi hc rfl ?_ fun _ => ?_
        · rw [htrace]
          exact accurate_start hne
        · rw [h.closed.mp (by simpa using hopen)]
          rfl
  | processing points =>
    rw [hpoint] at hstep hacc
    dsimp only at hstep
    split at hstep
    · next hall =>
      cases hstep
      have hc : c.counted = true := by rw [Call.counted, hpoint]
      exact h.moveCounted hi hc rfl (accurate_collect hacc hall) fun hp => by cases hp
    · cases hstep
  | finishing result => exact h.callReturn hi hpoint hstep
  | returned result =>
    rw [hpoint] at hstep
    cases hstep

theorem callTrace_append (i : ℕ) (log : List (Entry V)) (x : Entry V) :
    callTrace i (log ++ [x]) = callTrace i log ++ (askedBy i x).toList := by
  rw [callTrace, List.filterMap_append]
  cases hx : askedBy i x <;> simp [callTrace, hx]

theorem Inv.sinkStep (h : Inv cfg sinks s) {i j : ℕ} {c : Call V} {a : SinkAct V} (hi : s.calls[i]? = some c)
    (hstep : Service.sinkStep cfg sinks s i j c a = some s') : Inv cfg sinks s' := by
  have hacc := h.calls i c hi
  unfold Service.sinkStep at hstep
  split at hstep
  · next points hpoint =>
    rw [hpoint] at hacc
    simp only [Option.bind_eq_bind, Option.bind_eq_some_iff] at hstep
    obtain ⟨sink, hsink, point, hpt, hstep⟩ := hstep
    split at hstep
    · next hturn =>
      simp only [Option.bind_eq_some_iff] at hstep
      obtain ⟨⟨x, point'⟩, hx, hstep⟩ := hstep
      cases hstep
      have hc : c.counted = true := by rw [Call.counted, hpoint]
      have hp : c.isProcessing = true := by rw [Call.isProcessing, hpoint]
      -- A call is in `ProcessBatch`, so the wait is not over.
      have hopen : s.stop.drained = false := by
        by_contra hd
        have hidle := h.drained (by simpa using hd) c (List.mem_of_getElem? hi)
        rw [hp] at hidle
        cases hidle
      have hdown : s.stop.down = false := by
        cases hs : s.stop <;> rw [hs] at hopen <;> first | rfl | cases hopen
      have hother : ∀ k, k ≠ i → callTrace k (s.log ++ [.sink i j x]) = callTrace k s.log := by
        intro k hk
        have hnone : askedBy k (Entry.sink i j x) = none := by
          cases x <;> simp [askedBy, Ne.symm hk]
        rw [callTrace_append, hnone]
        exact List.append_nil _
      have hown : (CallPoint.processing (points.set j point')).Accurate cfg sinks c.events
          (callTrace i (s.log ++ [.sink i j x])) := by
        rw [callTrace_append]
        exact accurate_sink hacc hsink hpt hturn hx i
      have hmove := h.calls_move hi _ hother hown
      have hcount := countP_move hi (.processing (points.set j point'))
      have hcounted : Call.counted { c with point := .processing (points.set j point') } = true := rfl
      rw [hc, hcounted] at hcount
      exact {
        counter := h.counter.trans (Nat.add_right_cancel hcount).symm
        closed := h.closed
        drained := fun hd => by
          rw [show s.stop.drained = true from hd] at hopen
          cases hopen
        down := fun _ hmem => (List.mem_append.mp hmem).elim (h.down hdown) fun hmem => by simp at hmem
        last := fun pre post hlog => by
          have hmem : Entry.shutdownAll ∈ s.log ++ [Entry.sink i j x] := by
            rw [show s.log ++ [Entry.sink i j x] = pre ++ Entry.shutdownAll :: post from hlog]
            simp
          exact absurd hmem fun hmem => (List.mem_append.mp hmem).elim (h.down hdown) fun hmem => by simp at hmem
        calls := hmove.1
        known := hmove.2 }
    · cases hstep
  · cases hstep

/-- `Stop` moves on without ending its wait or calling `ShutdownAll`. -/
theorem Inv.stopAt (h : Inv cfg sinks s) {q : StopPoint} (hclosed : s.shutdown = false ↔ q = .running)
    (hdrained : q.drained = true → s.stop.drained = true ∨ s.counter = 0) (hdown : q.down = false → s.stop.down = false) :
    Inv cfg sinks { s with stop := q } :=
  { h with
    closed := hclosed
    drained := fun hq => (hdrained hq).elim h.drained fun hzero => idle_of_counter (h.counter ▸ hzero)
    down := fun hq => h.down (hdown hq) }

theorem Inv.stopStep (h : Inv cfg sinks s) (hstep : Service.stopStep s = some s') : Inv cfg sinks s' := by
  have hclosed := h.closed
  unfold Service.stopStep at hstep
  split at hstep
  · next hs =>
    cases hstep
    exact { h with
      closed := by simp
      drained := fun hd => by cases hd
      down := fun _ => h.down (by rw [hs]; rfl) }
  · next hs =>
    cases hstep
    rw [hs] at hclosed
    split
    · next hzero => exact h.stopAt (by simpa using hclosed) (fun _ => .inr hzero) fun _ => by rw [hs]; rfl
    · exact h.stopAt (by simpa using hclosed) (fun hd => by cases hd) fun _ => by rw [hs]; rfl
  · cases hstep
  · next hs =>
    cases hstep
    rw [hs] at hclosed
    split
    · next hzero => exact h.stopAt (by simpa using hclosed) (fun _ => .inr hzero) fun _ => by rw [hs]; rfl
    · exact { h with }
  · next hs =>
    cases hstep
    rw [hs] at hclosed
    exact h.stopAt (by simpa using hclosed) (fun _ => .inl (by rw [hs]; rfl)) fun _ => by rw [hs]; rfl
  · next hs =>
    cases hstep
    rw [hs] at hclosed
    have hnone : Entry.shutdownAll ∉ s.log := h.down (by rw [hs]; rfl)
    have htrace : ∀ k, callTrace k (s.log ++ [Entry.shutdownAll]) = callTrace k s.log := fun k => by
      rw [callTrace_append]
      exact List.append_nil _
    exact { h with
      closed := by simpa using hclosed
      drained := fun _ => h.drained (by rw [hs]; rfl)
      down := fun hd => by cases hd
      last := fun pre post hlog => by
        have hcut : pre ++ Entry.shutdownAll :: post = s.log ++ [Entry.shutdownAll] := hlog.symm
        rcases append_cons_cut hcut with ⟨e, he, -⟩ | ⟨e, he⟩
        · exact absurd (he ▸ by simp) hnone
        · have hlen := congrArg List.length he
          simp only [List.length_append, List.length_cons, List.length_nil] at hlen
          exact List.length_eq_zero_iff.mp (by omega)
      calls := fun k c hk => htrace k ▸ h.calls k c hk
      known := fun k hk => (htrace k).trans (h.known k hk) }
  · next hs =>
    cases hstep
    rw [hs] at hclosed
    exact h.stopAt (by simpa using hclosed) (fun _ => .inl (by rw [hs]; rfl)) fun hd => by cases hd
  · cases hstep

theorem Inv.step (h : Inv cfg sinks s) {a : Act V} (hstep : Service.step cfg sinks s a = some s') : Inv cfg sinks s' := by
  unfold Service.step at hstep
  split at hstep
  · cases hstep
  cases a with
  | call events => cases hstep; exact h.call events
  | go i =>
    obtain ⟨c, hi, hstep⟩ := Option.bind_eq_some_iff.mp hstep
    exact h.callStep hi hstep
  | sink i j a =>
    obtain ⟨c, hi, hstep⟩ := Option.bind_eq_some_iff.mp hstep
    exact h.sinkStep hi hstep
  | stop => exact h.stopStep hstep

end Inv

/-! ## After `ShutdownAll` -/

/-- Some sink is in a `Process` that a `handleBatch` called. -/
def InProcess (s : State V) : Prop :=
  ∃ c ∈ s.calls, ∃ points p rest, c.point = .processing points ∧ .inside p rest ∈ points

/-- **No delivery after the sinks are shut down.** In every run of a service with
any number of `handleBatch` calls and one `Stop`, whatever the batches, the sinks
and the interleaving: once `Stop` has called `ShutdownAll`, no sink is in a
`Process`, none has been entered or has done anything since, and a call that
returns nil had delivered its admitted events to every sink before. -/
theorem no_delivery_after_shutdown (cfg : CDCServiceConfig) (sinks : List (Sink V)) (s : State V)
    (hrun : Reaches (step cfg sinks) (fun _ _ => True) {} s) (pre post : List (Entry V))
    (hlog : s.log = pre ++ .shutdownAll :: post) :
    ¬ InProcess s ∧ post = [] ∧
      ∀ i c, s.calls[i]? = some c → c.point = .returned none → admitEvents cfg c.events ≠ [] →
        ∀ j sink, sinks[j]? = some sink →
          Exec (deliver sink (admitEvents cfg c.events)) (ofIndex j (callTrace i pre)) none := by
  have h : Inv cfg sinks s := hrun.invariant (fun _ _ _ h _ ha => h.step ha) inv_start
  obtain rfl := h.last pre post hlog
  have hdown : s.stop.down = true := by
    by_contra hd
    exact h.down (by simpa using hd) (by rw [hlog]; simp)
  have hdrained : s.stop.drained = true := by
    cases hs : s.stop <;> rw [hs] at hdown <;> first | rfl | cases hdown
  refine ⟨?_, rfl, fun i c hi hret hne j sink hsink => ?_⟩
  · rintro ⟨c, hc, points, p, rest, hpoint, -⟩
    have hidle := h.drained hdrained c hc
    rw [Call.isProcessing, hpoint] at hidle
    cases hidle
  · have hacc := h.calls i c hi
    have htrace : callTrace i s.log = callTrace i pre := by
      rw [hlog, callTrace_append]
      exact List.append_nil _
    rw [hret, htrace] at hacc
    exact handleBatch_delivered hacc rfl hne hsink

/-- Answers that let everything pass. -/
def healthy : (o : Op V) → o.Res
  | .process _ _ | .park _ => none
  | .ctxErr | .backoff _ => false
  | .beforeRequest _ => .ok 0
  | .afterRequest _ _ _ | .clearFailure _ _ | .clearFailures _ _ => ()
  | .recordFailure _ _ => (1, 0, false)
  | .failureInfo _ _ => (1, 0)
  | .now => (0 : ℕ)

/-- One batch is being delivered when `Stop` begins to wait, and wakes it. -/
def stoppedRun : List (Act Unit) :=
  [.call [bareEvent "0/1"], .go 0, .go 0, .sink 0 0 .start, .stop, .stop, .sink 0 0 (.answer healthy),
    .sink 0 0 .finish, .go 0, .go 0, .stop, .stop, .stop]

theorem no_delivery_after_shutdown_waited :
    ∃ s pre, runSteps (step ⟨true, []⟩ [destination "s" 0]) {} stoppedRun = some s ∧
      s.log = pre ++ [.shutdownAll] ∧ callTrace 0 pre = [(0, ⟨.process "s" [bareEvent "0/1"], none⟩)] ∧
      Exec (deliver (destination "s" 0) [bareEvent "0/1"]) (ofIndex 0 (callTrace 0 pre)) none := by
  obtain ⟨s, pre, hs, hlog, htrace, hcall⟩ : ∃ s pre,
      runSteps (step ⟨true, []⟩ [destination "s" 0]) {} stoppedRun = some s ∧ s.log = pre ++ [.shutdownAll] ∧
        callTrace 0 pre = [(0, ⟨.process "s" [bareEvent "0/1"], none⟩)] ∧
        s.calls[0]? = some ⟨[bareEvent "0/1"], .returned none⟩ :=
    ⟨_, [.sink 0 0 (.started [bareEvent "0/1"]), .sink 0 0 (.asked ⟨.process "s" [bareEvent "0/1"], none⟩),
      .sink 0 0 (.ended none)], rfl, rfl, rfl, rfl⟩
  obtain ⟨-, -, hdelivered⟩ := no_delivery_after_shutdown ⟨true, []⟩ [destination "s" 0] s (reaches_of_runSteps hs) pre []
    hlog
  exact ⟨s, pre, hs, hlog, htrace, hdelivered 0 _ hcall rfl (by decide) 0 _ rfl⟩

end Gtc.Service
