/-
Nothing is lost, repeated or reordered in the dead-letter layer: what a
`dlq.Sink.Process` call settles (accepted by the inner sink or parked) is,
in order, the batch when the call returns nil and a prefix of it when it
returns an error.

`Delivers` is what the layer needs of its inner sink: nil settles the whole
batch at once and an error settles nothing. `Accounts` is what it gives.
-/
import Gtc.Sink.Dlq
import Gtc.Sink.Resilience

namespace Gtc

open Lib

variable {V : Type}

/-- The settled events of a trace, in order. -/
def settledEvents (t : Trace V) : List (CDCEvent V) := (settled t).flatten

@[simp] theorem settledEvents_nil : settledEvents ([] : Trace V) = [] := rfl

@[simp] theorem settledEvents_append (t₁ t₂ : Trace V) :
    settledEvents (t₁ ++ t₂) = settledEvents t₁ ++ settledEvents t₂ := by
  simp [settledEvents, settled]

theorem settledEvents_cons (e : (sinkSig V).Event) (t : Trace V) :
    settledEvents (e :: t) = (settledBy e).getD [] ++ settledEvents t := by
  cases h : settledBy e <;> simp [settledEvents, settled, h]

/-- The program asks only for operations that settle nothing. -/
def Silent {α : Type} (p : SinkM V α) : Prop := ∀ t a, Exec p t a → settledEvents t = []

/-- A call that settles exactly the events, in order, when it returns nil, and
something `onErr` allows when it returns an error. -/
def Settles (onErr : List (CDCEvent V) → Prop) (p : SinkM V (Option Err)) (events : List (CDCEvent V)) : Prop :=
  ∀ t r, Exec p t r → (r = none → settledEvents t = events) ∧ (r ≠ none → onErr (settledEvents t))

/-- A call that accounts for its batch: an error leaves a prefix settled. -/
abbrev Accounts (p : SinkM V (Option Err)) (events : List (CDCEvent V)) : Prop :=
  Settles (· <+: events) p events

/-- A call that settles its whole batch or nothing. -/
abbrev AllOrNothing (p : SinkM V (Option Err)) (events : List (CDCEvent V)) : Prop :=
  Settles (· = []) p events

/-- A sink that settles its whole batch or nothing. -/
def Delivers (s : Sink V) : Prop := ∀ events, AllOrNothing (s.process events) events

/-! ## Composing accounts -/

theorem exec_ask_bind {β : Type} {o : Op V} {f : o.Res → SinkM V β} {t : Trace V} {b : β} :
    Exec (ask o >>= f) t b ↔ ∃ r t', t = ⟨o, r⟩ :: t' ∧ Exec (f r) t' b :=
  exec_perform_bind (S := sinkSig V)

variable {α : Type} {p : SinkM V (Option Err)} {events : List (CDCEvent V)} {inner : Sink V}

theorem Silent.pure {a : α} : Silent (pure a : SinkM V α) := by
  intro t b h; rw [(exec_pure.mp h).1, settledEvents_nil]

theorem Silent.bind {β : Type} {p : SinkM V α} {f : α → SinkM V β} (hp : Silent p)
    (hf : ∀ a, Silent (f a)) : Silent (p >>= f) := by
  intro t b h
  obtain ⟨t₁, t₂, a, rfl, h₁, h₂⟩ := exec_bind.mp h
  rw [settledEvents_append, hp _ _ h₁, hf a _ _ h₂, List.nil_append]

theorem Silent.ask {o : Op V} (h : ∀ r, settledBy ⟨o, r⟩ = none) : Silent (ask o) := by
  intro t r hx
  have ht : t = [⟨o, r⟩] := (exec_perform (S := sinkSig V)).mp hx
  rw [ht, settledEvents_cons, h]
  rfl

/-- The program settles nothing and returns `r`. -/
def Quiet (p : SinkM V (Option Err)) (r : Option Err) : Prop :=
  Silent p ∧ ∀ t r', Exec p t r' → r' = r

theorem quiet_pure (r : Option Err) : Quiet (pure r : SinkM V (Option Err)) r :=
  ⟨Silent.pure, fun _ _ h => (exec_pure.mp h).2⟩

theorem Quiet.of_silent_bind {p : SinkM V α} {f : α → SinkM V (Option Err)} {r : Option Err}
    (hp : Silent p) (hf : ∀ a, Quiet (f a) r) : Quiet (p >>= f) r := by
  refine ⟨hp.bind fun a => (hf a).1, fun t r' h => ?_⟩
  obtain ⟨t₁, t₂, a, rfl, -, h₂⟩ := exec_bind.mp h
  exact (hf a).2 _ _ h₂

theorem Quiet.allOrNothing {err : Err} (h : Quiet p (some err))
    (events : List (CDCEvent V)) : AllOrNothing p events := by
  intro t r hx
  refine ⟨fun hr => ?_, fun _ => h.1 t r hx⟩
  rw [h.2 t r hx] at hr
  cases hr

theorem AllOrNothing.accounts (h : AllOrNothing p events) : Accounts p events := by
  intro t r hx
  refine ⟨(h t r hx).1, fun hr => ?_⟩
  rw [(h t r hx).2 hr]
  exact List.nil_prefix

/-- A call that settles all or nothing, then bookkeeping when it returned nil
and another call for the same batch when it did not. -/
theorem AllOrNothing.retry {onErr : List (CDCEvent V) → Prop}
    {f : Option Err → SinkM V (Option Err)} (hp : AllOrNothing p events)
    (hnil : Quiet (f none) none) (herr : ∀ err, Settles onErr (f (some err)) events) :
    Settles onErr (p >>= f) events := by
  intro t r h
  obtain ⟨t₁, t₂, r₁, rfl, h₁, h₂⟩ := exec_bind.mp h
  rw [settledEvents_append]
  cases r₁ with
  | none =>
    rw [(hp _ _ h₁).1 rfl, hnil.1 _ _ h₂, List.append_nil]
    exact ⟨fun _ => rfl, fun hr => absurd (hnil.2 _ _ h₂) hr⟩
  | some err =>
    rw [(hp _ _ h₁).2 (by simp), List.nil_append]
    exact herr err _ _ h₂

/-- A silent step before a call changes nothing about what it settles. -/
theorem Settles.of_silent_bind {onErr : List (CDCEvent V) → Prop} {p : SinkM V α}
    {f : α → SinkM V (Option Err)} (hp : Silent p)
    (hf : ∀ a, Settles onErr (f a) events) : Settles onErr (p >>= f) events := by
  intro t r h
  obtain ⟨t₁, t₂, a, rfl, h₁, h₂⟩ := exec_bind.mp h
  rw [settledEvents_append, hp _ _ h₁, List.nil_append]
  exact hf a _ _ h₂

theorem allOrNothing_some (err : Err) (events : List (CDCEvent V)) :
    AllOrNothing (pure (some err) : SinkM V (Option Err)) events :=
  (quiet_pure _).allOrNothing events

/-- Two calls in sequence, the second made only when the first returned nil,
account for the two batches in sequence. -/
theorem Accounts.seq {q : SinkM V (Option Err)} {xs ys : List (CDCEvent V)} (hp : Accounts p xs)
    (hq : Accounts q ys) :
    Accounts (do match ← p with
                 | some err => return some err
                 | none => q) (xs ++ ys) := by
  intro t r h
  obtain ⟨t₁, t₂, r₁, rfl, h₁, h₂⟩ := exec_bind.mp h
  have hp₁ := hp _ _ h₁
  rw [settledEvents_append]
  cases r₁ with
  | none =>
    rw [hp₁.1 rfl]
    have hq₁ := hq _ _ h₂
    exact ⟨fun hr => by rw [hq₁.1 hr], fun hr => (List.prefix_append_right_inj xs).mpr (hq₁.2 hr)⟩
  | some err =>
    obtain ⟨rfl, rfl⟩ := exec_pure.mp h₂
    refine ⟨fun hr => (by simp at hr), fun _ => ?_⟩
    rw [settledEvents_nil, List.append_nil]
    exact (hp₁.2 (by simp)).trans (List.prefix_append xs ys)

/-! ## Destinations and retries -/

theorem destination_delivers (name : String) (limit : Int) : Delivers (destination (V := V) name limit) := by
  intro events t r h
  have ht : t = [⟨.process name events, r⟩] := (exec_perform (S := sinkSig V)).mp h
  subst ht
  cases r with
  | none => simp [settledEvents_cons, settledBy]
  | some err => simp [settledEvents_cons, settledBy]

theorem silent_ctxErr : Silent (ask (.ctxErr : Op V)) := Silent.ask fun _ => rfl

theorem silent_stalls (err : Err) : Silent (stalls err : SinkM V Bool) := by
  unfold stalls
  split
  · exact Silent.pure
  · split
    · exact Silent.pure
    · exact silent_ctxErr

/-- With an attempt left, the retries settle what the one that succeeds
settles. -/
theorem retryLoop_allOrNothing (hi : Delivers inner) (events : List (CDCEvent V)) :
    ∀ (left : ℕ) (lastErr : Option Err), AllOrNothing (retryLoop inner events lastErr (left + 1)) events := by
  intro left
  induction left with
  | zero =>
    intro lastErr
    rw [retryLoop]
    refine (hi events).retry (quiet_pure none) fun err => ?_
    dsimp only
    split
    · exact allOrNothing_some err events
    · refine Settles.of_silent_bind silent_ctxErr fun b => ?_
      split <;> exact allOrNothing_some err events
  | succ left ih =>
    intro lastErr
    rw [retryLoop]
    refine (hi events).retry (quiet_pure none) fun err => ?_
    dsimp only
    split
    · exact allOrNothing_some err events
    refine Settles.of_silent_bind silent_ctxErr fun b => ?_
    split
    · exact allOrNothing_some err events
    refine Settles.of_silent_bind (Silent.ask fun _ => rfl) fun b' => ?_
    split
    · exact allOrNothing_some err events
    · exact ih (some err)

theorem execute_allOrNothing {req : SinkM V (Option Err)}
    (hr : AllOrNothing req events) (name : String) : AllOrNothing (execute name req) events := by
  refine Settles.of_silent_bind (Silent.ask fun _ => rfl) fun admitted => ?_
  cases admitted with
  | error err => exact allOrNothing_some err events
  | ok generation =>
    refine hr.retry ?_ fun err => ?_
    · exact Quiet.of_silent_bind (Silent.ask fun _ => rfl) fun _ => quiet_pure none
    · exact Settles.of_silent_bind (Silent.ask fun _ => rfl) fun _ => allOrNothing_some err events

/-- **Retries and the breaker lose nothing**: with `MaxRetries` at least 0, nil
means the inner sink accepted the batch. -/
theorem resilientSink_delivers (hi : Delivers inner) {maxRetries : Int}
    (hm : 0 ≤ maxRetries) : Delivers (resilientSink inner maxRetries) := by
  intro events
  simp only [resilientSink]
  split
  · next he =>
    intro t r h
    obtain ⟨rfl, rfl⟩ := exec_pure.mp h
    simp [List.isEmpty_iff.mp he]
  · obtain ⟨left, hl⟩ : ∃ left : ℕ, (maxRetries + 1).toNat = left + 1 := ⟨maxRetries.toNat, by omega⟩
    have hreq : AllOrNothing (processWithRetry inner maxRetries events) events := by
      rw [processWithRetry, hl]
      exact retryLoop_allOrNothing hi events left none
    refine (execute_allOrNothing hreq inner.name).retry (quiet_pure none) fun err => ?_
    dsimp only
    split <;> exact allOrNothing_some _ events

/-! ## Bisection -/

theorem managerPark_accounts (name : String) (event : CDCEvent V) (cause : Err) (attempts first : ℕ) :
    AllOrNothing (managerPark name event cause attempts first) [event] := by
  refine Settles.of_silent_bind (Silent.ask fun _ => rfl) fun now => ?_
  intro t r h
  obtain ⟨parkErr, t', rfl, hx⟩ := exec_ask_bind.mp h
  rw [settledEvents_cons]
  cases parkErr with
  | some err =>
    obtain ⟨rfl, rfl⟩ := exec_pure.mp hx
    simp [settledBy]
  | none =>
    have hq : Quiet (do ask (.clearFailure name event.id : Op V); pure none) none :=
      Quiet.of_silent_bind (Silent.ask fun _ => rfl) fun _ => quiet_pure none
    obtain rfl := hq.2 _ _ hx
    rw [hq.1 _ _ hx]
    simp [settledBy]

theorem park_accounts (inner : Sink V) (event : CDCEvent V) (cause : Err) :
    Accounts (park inner event cause) [event] := by
  refine Settles.of_silent_bind (Silent.ask fun _ => rfl) fun info => ?_
  refine (managerPark_accounts inner.name event cause info.1 info.2).retry (quiet_pure none) fun err => ?_
  exact (allOrNothing_some _ _).accounts

theorem isolateHalf_accounts (hi : Delivers inner) {isolate : List (CDCEvent V) → Err → SinkM V (Option Err)}
    (hrec : ∀ events err, Accounts (isolate events err) events) (half : List (CDCEvent V)) :
    Accounts (isolateHalf inner isolate half) half := by
  refine (hi half).retry ?_ fun err => ?_
  · exact Quiet.of_silent_bind (Silent.ask fun _ => rfl) fun _ => quiet_pure none
  · refine Settles.of_silent_bind (silent_stalls err) fun stalled => ?_
    cases stalled with
    | true => exact (allOrNothing_some err half).accounts
    | false => exact hrec half err

theorem isolateFuel_accounts (hi : Delivers inner) :
    ∀ (fuel : ℕ) (events : List (CDCEvent V)) (err : Err), Accounts (isolateFuel inner fuel events err) events := by
  intro fuel
  induction fuel with
  | zero => intro events err; exact (allOrNothing_some err events).accounts
  | succ fuel ih =>
    intro events err
    have halves : Accounts _ events := List.take_append_drop (events.length / 2) events ▸
      (isolateHalf_accounts hi ih (events.take (events.length / 2))).seq
        (isolateHalf_accounts hi ih (events.drop (events.length / 2)))
    match events with
    | [event] => exact park_accounts inner event err
    | [] | _ :: _ :: _ => exact halves

theorem dlqSink_accounts (hi : Delivers inner) (events : List (CDCEvent V)) :
    Accounts ((dlqSink inner).process events) events := by
  simp only [dlqSink]
  cases events with
  | nil =>
    intro t r h
    obtain ⟨rfl, rfl⟩ := exec_pure.mp h
    simp
  | cons first rest =>
    refine (hi _).retry ?_ fun err => ?_
    · exact Quiet.of_silent_bind (Silent.ask fun _ => rfl) fun _ => quiet_pure none
    · refine Settles.of_silent_bind (silent_stalls err) fun stalled => ?_
      have hisolate := isolateFuel_accounts hi (first :: rest).length (first :: rest) err
      cases stalled with
      | true => exact (allOrNothing_some err _).accounts
      | false =>
        cases err.isPermanent with
        | true => exact hisolate
        | false =>
          refine Settles.of_silent_bind (Silent.ask fun _ => rfl) fun record => ?_
          cases record.2.2 with
          | true => exact hisolate
          | false => exact (allOrNothing_some err _).accounts

/-- **Bisection accounts for every event exactly once and in order.** Whatever
the inner sink and the store answer during one `Process` of the dead-letter
sink, the batches accepted and the events parked, in time order, concatenate
to the batch when it returns nil and to a prefix of the batch when it returns
an error. -/
theorem dlqSink_settles_in_order (name : String) (limit : Int) (events : List (CDCEvent V)) (t : Trace V)
    (r : Option Err) (h : Exec ((dlqSink (destination name limit)).process events) t r) :
    (r = none → (settled t).flatten = events) ∧ (r ≠ none → (settled t).flatten <+: events) :=
  dlqSink_accounts (destination_delivers name limit) events t r h

/-- A batch of two whose second event is poison: the first half is accepted,
the second parked. -/
def poisonTrace : Trace Unit :=
  let bad : Err := .permanent (.new "rejected")
  let a := bareEvent "0/1"
  let b := bareEvent "0/2"
  [⟨.process "s" [a, b], some bad⟩, ⟨.ctxErr, false⟩, ⟨.process "s" [a], none⟩, ⟨.clearFailures "s" ["0/1"], ()⟩,
    ⟨.process "s" [b], some bad⟩, ⟨.ctxErr, false⟩, ⟨.failureInfo "s" "0/2", (1, 7)⟩, ⟨.now, 7⟩,
    ⟨.park { id := "s:0/2", sinkName := "s", schema := "public", table := "users", operation := "INSERT",
             lsn := "0/2", error := "rejected", attempts := 1, firstFailedAt := 7, lastFailedAt := 7,
             event := b }, none⟩,
    ⟨.clearFailure "s" "0/2", ()⟩]

theorem dlqSink_settles_in_order_poison :
    (settled poisonTrace).flatten = [bareEvent "0/1", bareEvent "0/2"] := by
  refine (dlqSink_settles_in_order "s" 0 [bareEvent "0/1", bareEvent "0/2"] poisonTrace none ?_).1 rfl
  exact .ask (.ask (.ask (.ask (.ask (.ask (.ask (.ask (.ask (.ask .ret)))))))))

end Gtc
