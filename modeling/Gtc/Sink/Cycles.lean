/-
An event that fails every call it is part of, over the cycles of replay and
delivery.

A transient failure is counted against the first event of the batch, and a
batch that is delivered clears the counts of its events. Which event comes first
is up to how a cycle cuts the stream into batches, so the count that reaches
the threshold is one that every cycle has added to and none has cleared:
`Aligned`.
-/
import Gtc.Sink.Bisection
import Mathlib.Data.List.Induction

namespace Gtc

open Lib

variable {V : Type}

/-! ## Cycles -/

/-- One cycle of the stream over the events that follow the last confirmed
position: their batches are delivered in order until one fails, which tears the
stream down. -/
def deliverBatches (sink : Sink V) : List (List (CDCEvent V)) → SinkM V (Option Err)
  | [] => pure none
  | batch :: batches => do
    match ← sink.process batch with
    | some err => return some err
    | none => deliverBatches sink batches

/-- A way to cut the events into consecutive batches. -/
structure IsCut (events : List (CDCEvent V)) (cut : List (List (CDCEvent V))) : Prop where
  flatten : cut.flatten = events
  nonempty : [] ∉ cut

/-- One cycle after the other, each with its own cut. -/
def Bench.replay (threshold : ℕ) (env : BenchEnv V) (name : String) (cuts : List (List (List (CDCEvent V)))) (b : Bench V) :
    Bench V :=
  cuts.foldl (fun b cut => (b.exec threshold env (deliverBatches (benchSink name) cut)).2) b

section Cuts

variable (poison : CDCEvent V → Bool)

/-- The IDs of the events that a cycle delivers before it meets poison. -/
def aheadIDs (cut : List (List (CDCEvent V))) : List String :=
  (cut.takeWhile fun batch => !batch.any poison).flatten.map (·.id)

/-- The event that the failure of a cycle is counted against. -/
def countedEvent (cut : List (List (CDCEvent V))) : Option (CDCEvent V) := (cut.find? (·.any poison)).bind (·.head?)

theorem countedEvent_mem {poison : CDCEvent V → Bool} {cut : List (List (CDCEvent V))} {first : CDCEvent V}
    (h : countedEvent poison cut = some first) : first ∈ cut.flatten := by
  obtain ⟨batch, hbatch, hfirst⟩ := Option.bind_eq_some_iff.mp h
  exact List.mem_flatten.mpr ⟨batch, List.mem_of_find?_eq_some hbatch, List.mem_of_mem_head? hfirst⟩

/-- Every cycle counts its failure against the same event ID, and none after the
first delivers an event of that ID before it meets the poison. -/
structure Aligned (id : String) (cuts : List (List (List (CDCEvent V)))) : Prop where
  counted : ∀ cut ∈ cuts, (countedEvent poison cut).map (·.id) = some id
  kept : ∀ cut ∈ cuts.tail, id ∉ aheadIDs poison cut

end Cuts

namespace Bench

variable {threshold : ℕ} {env : BenchEnv V} {name : String} {poison : CDCEvent V → Bool}

/-- Entries are only ever added to the queue. -/
theorem parked_grows {α : Type} (p : SinkM V α) (b : Bench V) : b.parked <+: (b.exec threshold env p).2.parked := by
  induction p generalizing b with
  | ret a => exact List.prefix_refl _
  | ask o k ih =>
    refine List.IsPrefix.trans ?_ (ih _ (b.handle threshold env o).2)
    cases o <;> first | exact List.prefix_refl _ | exact List.prefix_append _ _

theorem parkedEvents_mono {α : Type} (p : SinkM V α) {b : Bench V} {e : CDCEvent V} (h : e ∈ b.parkedEvents) :
    e ∈ (b.exec threshold env p).2.parkedEvents := by
  obtain ⟨entry, hmem, he⟩ := List.mem_map.mp h
  exact List.mem_map.mpr ⟨entry, (parked_grows p b).subset hmem, he⟩

theorem parkedEvents_replay (cuts : List (List (List (CDCEvent V)))) {b : Bench V} {e : CDCEvent V} (h : e ∈ b.parkedEvents) :
    e ∈ (b.replay threshold env name cuts).parkedEvents := by
  induction cuts generalizing b with
  | nil => exact h
  | cons cut cuts ih => exact ih (parkedEvents_mono _ h)

/-! ## One cycle -/

/-- The bench after a failure was counted. -/
def recorded (threshold : ℕ) (env : BenchEnv V) (name eventID : String) (b : Bench V) : Bench V :=
  { b with failures := (b.failures.recordFailure threshold (env.now (b.calls.length + 1)) name eventID).2 }

/-- A transient error is counted, and isolated once the count has reached the
threshold. -/
theorem process_transient (threshold : ℕ) (name : String) (henv : env.Poison poison) {first : CDCEvent V} {rest : List (CDCEvent V)} {b : Bench V} {err : Err}
    (hanswer : env.answer b.calls.length (first :: rest) = some err) (hperm : err.isPermanent = false) :
    b.exec threshold env ((benchSink name).process (first :: rest)) =
      if threshold ≤ b.failures.count name first.id + 1 then
        ((b.recorded threshold env name first.id).called env (first :: rest)).exec threshold env
          (isolate (destination name 0) (first :: rest) err)
      else (some err, (b.recorded threshold env name first.id).called env (first :: rest)) := by
  have hname : (destination name 0 : Sink V).name = name := rfl
  have hlength : (b.called env (first :: rest)).calls.length = b.calls.length + 1 := by simp [called]
  have hreached : ((b.called env (first :: rest)).failures.recordFailure threshold (env.now (b.calls.length + 1)) name first.id).1.2.2 =
      decide (threshold ≤ b.failures.count name first.id + 1) := recordFailure_reached ..
  by_cases h : threshold ≤ b.failures.count name first.id + 1
  all_goals
    simp only [benchSink, dlqSink, exec_bind, exec_call, hanswer, exec_stalls henv hanswer, hperm, hname, exec_recordFailure,
      hlength, hreached, h, Bool.not_false, decide_true, decide_false, Bool.not_true, Bool.false_eq_true, if_true, if_false, exec_pure]
    rfl

/-- The count of an event once a cycle has delivered what is ahead of the
poison. -/
def countAhead (name : String) (poison : CDCEvent V → Bool) (cut : List (List (CDCEvent V))) (b : Bench V) (id : String) : ℕ :=
  if id ∈ aheadIDs poison cut then 0 else b.failures.count name id

/-- **What a cycle comes to**: the poison is parked if the count of the event in
front of its batch reaches the threshold, and if not that count is all that
changes, but for the counts that were cleared on the way. -/
theorem cycle_run (threshold : ℕ) (name : String) (henv : env.Poison poison) (htransient : ∀ n batch err, env.answer n batch = some err → err.isPermanent = false)
    {cut : List (List (CDCEvent V))} (hne : [] ∉ cut) (hpoison : cut.flatten.any poison = true) (b : Bench V) :
    ∃ first, countedEvent poison cut = some first ∧
      (threshold ≤ b.countAhead name poison cut first.id + 1 →
        ∃ e, poison e = true ∧ e ∈ (b.exec threshold env (deliverBatches (benchSink name) cut)).2.parkedEvents) ∧
      (b.countAhead name poison cut first.id + 1 < threshold →
        (b.exec threshold env (deliverBatches (benchSink name) cut)).1 ≠ none ∧
        (b.exec threshold env (deliverBatches (benchSink name) cut)).2.parked = b.parked ∧
        ∀ id, (b.exec threshold env (deliverBatches (benchSink name) cut)).2.failures.count name id =
          if id = first.id then b.countAhead name poison cut id + 1 else b.countAhead name poison cut id) := by
  induction cut generalizing b with
  | nil => cases hpoison
  | cons batch cut ih =>
    rw [List.mem_cons, not_or] at hne
    cases hany : batch.any poison with
    | false =>
      -- the batch is delivered, and the counts of its events are cleared
      have hrest : cut.flatten.any poison = true := by simpa [hany] using hpoison
      have hstep := process_clean threshold name henv (Ne.symm hne.1) hany b
      have hcount : ((b.called env batch).cleared name batch).countAhead name poison cut = b.countAhead name poison (batch :: cut) := by
        funext id
        have hids : aheadIDs poison (batch :: cut) = batch.map (·.id) ++ aheadIDs poison cut := by simp [aheadIDs, hany]
        simp only [countAhead, cleared, called, count_clearFailures, hids, List.mem_append]
        by_cases hbatch : id ∈ batch.map (·.id)
        · simp only [hbatch, if_true, ite_self, true_or]
        · simp only [hbatch, if_false, false_or]
      have hrun : b.exec threshold env (deliverBatches (benchSink name) (batch :: cut)) =
          ((b.called env batch).cleared name batch).exec threshold env (deliverBatches (benchSink name) cut) := by
        rw [deliverBatches, exec_bind, hstep]
      obtain ⟨first, hfirst, hparks, hcounts⟩ := ih hne.2 hrest ((b.called env batch).cleared name batch)
      rw [hcount] at hparks hcounts
      rw [hrun]
      exact ⟨first, by simpa [countedEvent, hany] using hfirst, hparks, hcounts⟩
    | true =>
      cases batch with
      | nil => cases hany
      | cons first rest =>
        obtain ⟨err, hanswer⟩ := answer_some henv hany b.calls.length
        have hahead : b.countAhead name poison ((first :: rest) :: cut) = b.failures.count name := by
          funext id
          simp [countAhead, aheadIDs, hany]
        have hstep := process_transient threshold name henv hanswer (htransient _ _ _ hanswer)
        refine ⟨first, by simp [countedEvent, hany], ?_, ?_⟩
        · intro hreached
          rw [hahead] at hreached
          rw [if_pos hreached] at hstep
          obtain ⟨b', hrun, hdeals⟩ := isolate_deals threshold name henv (b := b.recorded threshold env name first.id) hanswer
          rw [hrun] at hstep
          obtain ⟨e, he, hp⟩ := List.any_eq_true.mp hany
          have hmem : e ∈ b'.parkedEvents := by
            rw [hdeals.parked]
            exact List.mem_append_right _ (List.mem_filter.mpr ⟨he, hp⟩)
          refine ⟨e, hp, ?_⟩
          rw [deliverBatches, exec_bind, hstep]
          exact parkedEvents_mono _ hmem
        · intro hless
          rw [hahead] at hless
          rw [if_neg (by omega)] at hstep
          rw [deliverBatches, exec_bind, hstep, hahead]
          exact ⟨by simp, rfl, fun id => count_recordFailure threshold b.failures _ name first.id id⟩

/-- A cycle that meets no poison goes through, and only clears counts. -/
theorem cycle_clean (threshold : ℕ) (name : String) (henv : env.Poison poison) {cut : List (List (CDCEvent V))}
    (hclean : cut.flatten.any poison = false) (b : Bench V) :
    (b.exec threshold env (deliverBatches (benchSink name) cut)).1 = none ∧
      (b.exec threshold env (deliverBatches (benchSink name) cut)).2.parked = b.parked ∧
      ∀ id, (b.exec threshold env (deliverBatches (benchSink name) cut)).2.failures.count name id ≤ b.failures.count name id := by
  induction cut generalizing b with
  | nil => exact ⟨rfl, rfl, fun _ => Nat.le_refl _⟩
  | cons batch cut ih =>
    rw [List.flatten_cons, List.any_append, Bool.or_eq_false_iff] at hclean
    by_cases hne : batch = []
    · subst hne
      exact ih hclean.2 b
    · have hrun : b.exec threshold env (deliverBatches (benchSink name) (batch :: cut)) =
          ((b.called env batch).cleared name batch).exec threshold env (deliverBatches (benchSink name) cut) := by
        rw [deliverBatches, exec_bind, process_clean threshold name henv hne hclean.1 b]
      obtain ⟨hresult, hparked, hcount⟩ := ih hclean.2 ((b.called env batch).cleared name batch)
      rw [hrun]
      refine ⟨hresult, hparked, fun id => (hcount id).trans ?_⟩
      simp only [cleared, called, count_clearFailures]
      split
      · exact Nat.zero_le _
      · exact Nat.le_refl _

/-- With a threshold of one, every failure is isolated. -/
theorem cycle_isolates (name : String) (henv : env.Poison poison)
    (htransient : ∀ n batch err, env.answer n batch = some err → err.isPermanent = false) (cut : List (List (CDCEvent V)))
    (b : Bench V) :
    ∃ b', b.exec 1 env (deliverBatches (benchSink name) cut) = (none, b') ∧
      b'.parkedEvents = b.parkedEvents ++ cut.flatten.filter poison := by
  induction cut generalizing b with
  | nil => exact ⟨b, rfl, by simp⟩
  | cons batch cut ih =>
    have hbatch : ∃ b₁, b.exec 1 env ((benchSink name).process batch) = (none, b₁) ∧
        b₁.parkedEvents = b.parkedEvents ++ batch.filter poison := by
      cases batch with
      | nil => exact ⟨b, rfl, by simp⟩
      | cons first rest =>
        cases hanswer : env.answer b.calls.length (first :: rest) with
        | none =>
          have hany : (first :: rest).any poison = false := by rw [← henv.answer b.calls.length, hanswer]; rfl
          exact ⟨_, process_clean 1 name henv (by simp) hany b, (deals_accepted name henv hany b).parked⟩
        | some err =>
          rw [process_transient 1 name henv hanswer (htransient _ _ _ hanswer), if_pos (by omega)]
          obtain ⟨b₁, hrun, hdeals⟩ := isolate_deals 1 name henv (b := b.recorded 1 env name first.id) hanswer
          exact ⟨b₁, hrun, hdeals.parked⟩
    obtain ⟨b₁, hrun, hparked⟩ := hbatch
    obtain ⟨b', hrest, hparked'⟩ := ih b₁
    refine ⟨b', by rw [deliverBatches, exec_bind, hrun]; exact hrest, ?_⟩
    rw [hparked', hparked, List.flatten_cons, List.filter_append, List.append_assoc]

/-! ## Cycle after cycle -/

section Replay

variable (henv : env.Poison poison) (htransient : ∀ n batch err, env.answer n batch = some err → err.isPermanent = false)

include henv htransient in
/-- Cycles that all count against one event, and never clear its count, park the
poison once there are enough of them. -/
theorem replay_parks {id : String} {cuts : List (List (List (CDCEvent V)))}
    (hcuts : ∀ cut ∈ cuts, [] ∉ cut ∧ cut.flatten.any poison = true)
    (hcounted : ∀ cut ∈ cuts, (countedEvent poison cut).map (·.id) = some id)
    (hkept : ∀ cut ∈ cuts, id ∉ aheadIDs poison cut) {b : Bench V} (hpos : 0 < cuts.length)
    (henough : threshold ≤ b.failures.count name id + cuts.length) :
    ∃ e, poison e = true ∧ e ∈ (b.replay threshold env name cuts).parkedEvents := by
  induction cuts generalizing b with
  | nil => simp at hpos
  | cons cut cuts ih =>
    obtain ⟨hne, hany⟩ := hcuts cut (by simp)
    obtain ⟨first, hfirst, hparks, hcounts⟩ := cycle_run threshold name henv htransient hne hany b
    have hid : first.id = id := by simpa [hfirst] using hcounted cut (by simp)
    have hcount : b.countAhead name poison cut id = b.failures.count name id := if_neg (hkept cut (by simp))
    rw [hid, hcount] at hparks hcounts
    by_cases hreached : threshold ≤ b.failures.count name id + 1
    · obtain ⟨e, hp, he⟩ := hparks hreached
      exact ⟨e, hp, parkedEvents_replay cuts he⟩
    · have hnext := (hcounts (by omega)).2.2 id
      rw [if_pos rfl, hcount] at hnext
      rw [List.length_cons] at henough
      refine ih (fun cut h => hcuts cut (by simp [h])) (fun cut h => hcounted cut (by simp [h]))
        (fun cut h => hkept cut (by simp [h])) (by omega) ?_
      change threshold ≤ (b.exec threshold env (deliverBatches (benchSink name) cut)).2.failures.count name id + cuts.length
      omega

include henv htransient in
/-- The first of the cycles may clear the count before it adds to it. -/
theorem aligned_parks (name : String) {id : String} {cuts : List (List (List (CDCEvent V)))}
    (hcuts : ∀ cut ∈ cuts, [] ∉ cut ∧ cut.flatten.any poison = true) (haligned : Aligned poison id cuts)
    (hpos : 0 < cuts.length) (henough : threshold ≤ cuts.length) (b : Bench V) :
    ∃ e, poison e = true ∧ e ∈ (b.replay threshold env name cuts).parkedEvents := by
  cases cuts with
  | nil => cases hpos
  | cons cut cuts =>
    obtain ⟨hne, hany⟩ := hcuts cut (by simp)
    obtain ⟨first, hfirst, hparks, hcounts⟩ := cycle_run threshold name henv htransient hne hany b
    have hid : first.id = id := by simpa [hfirst] using haligned.counted cut (by simp)
    rw [hid] at hparks hcounts
    by_cases hreached : threshold ≤ b.countAhead name poison cut id + 1
    · obtain ⟨e, hp, he⟩ := hparks hreached
      exact ⟨e, hp, parkedEvents_replay cuts he⟩
    · have hnext := (hcounts (by omega)).2.2 id
      rw [if_pos rfl] at hnext
      rw [List.length_cons] at henough
      exact replay_parks henv htransient (fun cut h => hcuts cut (List.mem_cons_of_mem _ h))
        (fun cut h => haligned.counted cut (List.mem_cons_of_mem _ h)) haligned.kept (by omega) (by rw [hnext]; omega)

/-- What the counts say about the cycles so far, if none has parked anything. -/
structure Streak (name : String) (poison : CDCEvent V → Bool) (cuts : List (List (List (CDCEvent V)))) (b : Bench V) : Prop where
  parked : b.parked = []
  count_le : ∀ id, b.failures.count name id ≤ cuts.length
  aligned : ∀ id, b.failures.count name id = cuts.length → Aligned poison id cuts

/-- The next cycle counts against an event that all cycles have counted
against. -/
theorem Streak.aligned_concat {cuts : List (List (List (CDCEvent V)))} {b : Bench V} (h : Streak name poison cuts b)
    {cut : List (List (CDCEvent V))} {first : CDCEvent V} (hfirst : countedEvent poison cut = some first)
    (hcount : b.countAhead name poison cut first.id = cuts.length) : Aligned poison first.id (cuts ++ [cut]) := by
  by_cases hahead : first.id ∈ aheadIDs poison cut
  · obtain rfl : cuts = [] := List.length_eq_zero_iff.mp (by rw [← hcount, countAhead, if_pos hahead])
    exact ⟨by simp [hfirst], by simp⟩
  · rw [countAhead, if_neg hahead] at hcount
    have haligned := h.aligned _ hcount
    refine ⟨fun cut' hmem => ?_, fun cut' hmem => ?_⟩
    · rcases List.mem_append.mp hmem with hmem | hmem
      · exact haligned.counted cut' hmem
      · rw [List.mem_singleton.mp hmem, hfirst]
        rfl
    · cases cuts with
      | nil => simp at hmem
      | cons cut₀ cuts =>
        rcases List.mem_append.mp hmem with hmem | hmem
        · exact haligned.kept cut' hmem
        · rw [List.mem_singleton.mp hmem]
          exact hahead

theorem countAhead_le {cuts : List (List (List (CDCEvent V)))} {b : Bench V} (h : Streak name poison cuts b)
    (cut : List (List (CDCEvent V))) (id : String) : b.countAhead name poison cut id ≤ cuts.length := by
  unfold countAhead
  split
  · exact Nat.zero_le _
  · exact h.count_le id

include henv htransient in
/-- From a manager that has counted nothing, no more cycles than the threshold
park nothing, unless they are as many as the threshold and aligned. -/
theorem replay_streak (name : String) {cuts : List (List (List (CDCEvent V)))}
    (hcuts : ∀ cut ∈ cuts, [] ∉ cut ∧ cut.flatten.any poison = true) (hlength : cuts.length ≤ threshold) :
    Streak name poison cuts (Bench.replay threshold env name cuts {}) ∨
      cuts.length = threshold ∧ ∃ id, Aligned poison id cuts := by
  induction cuts using List.reverseRecOn with
  | nil => exact .inl ⟨rfl, fun _ => Nat.le_refl _, fun _ _ => ⟨by simp, by simp⟩⟩
  | append_singleton cuts cut ih =>
    rw [List.length_append, List.length_singleton] at hlength
    obtain ⟨hne, hany⟩ := hcuts cut (by simp)
    have hstreak : Streak name poison cuts (Bench.replay threshold env name cuts {}) := by
      rcases ih (fun cut h => hcuts cut (by simp [h])) (by omega) with hstreak | ⟨hall, -⟩
      · exact hstreak
      · omega
    obtain ⟨first, hfirst, -, hcounts⟩ := cycle_run threshold name henv htransient hne hany (Bench.replay threshold env name cuts {})
    have hrun : Bench.replay threshold env name (cuts ++ [cut]) {} =
        ((Bench.replay threshold env name cuts {}).exec threshold env (deliverBatches (benchSink name) cut)).2 := by
      simp [Bench.replay]
    generalize hb : Bench.replay threshold env name cuts {} = b at hstreak hcounts hrun
    have hle := countAhead_le hstreak cut
    rw [List.length_append, List.length_singleton, hrun]
    by_cases hreached : threshold ≤ b.countAhead name poison cut first.id + 1
    · have := hle first.id
      exact .inr ⟨by omega, first.id, hstreak.aligned_concat hfirst (by omega)⟩
    · obtain ⟨-, hparked, hcount⟩ := hcounts (by omega)
      refine .inl ⟨hparked.trans hstreak.parked, fun id => ?_, fun id hid => ?_⟩
      all_goals
        have := hle id
        rw [List.length_append, List.length_singleton] at *
        rw [hcount id] at *
      · split <;> omega
      · split at hid
        · next heq =>
          subst heq
          exact hstreak.aligned_concat hfirst (by omega)
        · omega

end Replay

end Bench

/-- **A persistently failing event is isolated within the threshold exactly when
the cycles are aligned**: whatever the manager has counted before, the event is
parked by the end of as many cycles as the threshold, if and only if all of them
count their failure against the same event ID, and none after the first delivers
an event of that ID ahead of it. -/
theorem isolated_within_threshold_iff [DecidableEq V] (configured : Int) (name : String) {env : BenchEnv V} {P : CDCEvent V}
    (henv : env.Poison fun e => decide (e = P))
    (htransient : ∀ n batch err, env.answer n batch = some err → err.isPermanent = false)
    {events : List (CDCEvent V)} (hP : P ∈ events) {cuts : List (List (List (CDCEvent V)))}
    (hcuts : ∀ cut ∈ cuts, IsCut events cut) (hlength : cuts.length = newManagerThreshold configured) :
    (∀ failures, P ∈ (Bench.replay (newManagerThreshold configured) env name cuts { failures }).parkedEvents) ↔
      ∃ id, Aligned (fun e => decide (e = P)) id cuts := by
  have hall : ∀ cut ∈ cuts, [] ∉ cut ∧ cut.flatten.any (fun e => decide (e = P)) = true := by
    intro cut hcut
    exact ⟨(hcuts cut hcut).nonempty, by rw [(hcuts cut hcut).flatten]; simpa using hP⟩
  have hpos := newManagerThreshold_pos configured
  constructor
  · intro hparked
    have hfresh := hparked fun _ => none
    rcases Bench.replay_streak henv htransient name hall hlength.le with hstreak | ⟨-, haligned⟩
    · rw [Bench.parkedEvents, hstreak.parked] at hfresh
      cases hfresh
    · exact haligned
  · rintro ⟨id, haligned⟩ failures
    obtain ⟨e, he, hmem⟩ := Bench.aligned_parks henv htransient name hall haligned (by omega) hlength.ge { failures }
    rwa [of_decide_eq_true he] at hmem

/-! ### Two events, twice -/

/-- The event that fails every call. -/
def failingEvent : CDCEvent ℕ := bareEvent "0/2"

/-- Every batch with it in it is refused, as a sick sink would. -/
def refusing : BenchEnv ℕ := rejects (fun e => decide (e = failingEvent)) (.new "connection refused")

def twoEvents : List (CDCEvent ℕ) := [bareEvent "0/1", failingEvent]

theorem isolated_within_threshold_two : failingEvent ∈
    (Bench.replay (newManagerThreshold 2) refusing "s" [[twoEvents], [twoEvents]] {}).parkedEvents := by
  have htransient : ∀ n batch err, refusing.answer n batch = some err → err.isPermanent = false := by
    intro n batch err h
    rw [rejects_eq_some h]
    decide
  have hcut : IsCut twoEvents [twoEvents] := ⟨by decide, by decide⟩
  have haligned : Aligned (fun e => decide (e = failingEvent)) "0/1" [[twoEvents], [twoEvents]] := ⟨by decide, by decide⟩
  have hmem : failingEvent ∈ twoEvents := by decide
  exact (isolated_within_threshold_iff 2 "s" (rejects_poison (by decide) (by decide)) htransient hmem
    (by simpa using hcut) rfl).mpr ⟨"0/1", haligned⟩ fun _ => none

/-- The second cycle cuts between the two events: the first is delivered, which
clears the count, and the failure of the second is the first against itself. -/
theorem recut_batch_not_isolated :
    IsCut twoEvents [twoEvents] ∧ IsCut twoEvents [[bareEvent "0/1"], [failingEvent]] ∧ newManagerThreshold 2 = 2 ∧
      failingEvent ∉ (Bench.replay (newManagerThreshold 2) refusing "s"
        [[twoEvents], [[bareEvent "0/1"], [failingEvent]]] {}).parkedEvents :=
  ⟨⟨by decide, by decide⟩, ⟨by decide, by decide⟩, by decide, by decide⟩

end Gtc
