/-
The failure records of the dead-letter manager across one `Process`.

A delivery counts at most one failure, on the batch's first event, before it
isolates anything; from there on it only forgets records, and exactly those of
the events it settles: a half when the inner sink took it, an event when it is
parked (`Tidies`, by recursion over the halves). What a delivery settles is the
batch when it returns nil and a prefix of it otherwise (`dlqSink_accounts`), so
the records after it can be read off (`failure_records_cleared`).
-/
import Gtc.Lib.Numerals
import Gtc.Sink.Accounting
import Mathlib.Data.List.Nodup

namespace Gtc

open Lib

variable {V : Type}

/-! ## Keys -/

/-- No sink of `newSinks` has a colon in its name, so the key tells the sink from
the event, whatever the event's ID is. -/
theorem failureKey_eq_iff {sink sink' id id' : String} (h : ':' ∉ sink.toList) (h' : ':' ∉ sink'.toList) :
    failureKey sink id = failureKey sink' id' ↔ sink = sink' ∧ id = id' := by
  constructor
  · intro hkey
    have hchars : sink.toList ++ ':' :: id.toList = sink'.toList ++ ':' :: id'.toList := by
      simpa [failureKey] using congrArg String.toList hkey
    obtain ⟨hsink, hid⟩ := append_cons_inj_of_notMem h h' hchars
    exact ⟨String.toList_inj.mp hsink, String.toList_inj.mp hid⟩
  · rintro ⟨rfl, rfl⟩; rfl

theorem clearFailures_apply (f : Failures) (sinkName : String) (eventIDs : List String) (key : String) :
    f.clearFailures sinkName eventIDs key = if key ∈ eventIDs.map (failureKey sinkName) then none else f key := by
  induction eventIDs generalizing f with
  | nil => rfl
  | cons id eventIDs ih =>
    have hcons : f.clearFailures sinkName (id :: eventIDs) =
        (f.clearFailure sinkName id).clearFailures sinkName eventIDs := rfl
    rw [hcons, ih]
    simp only [Failures.clearFailure, Function.update_apply, List.map_cons, List.mem_cons]
    split <;> split <;> simp_all

theorem clearFailures_append (f : Failures) (sinkName : String) (ids ids' : List String) :
    f.clearFailures sinkName (ids ++ ids') = (f.clearFailures sinkName ids).clearFailures sinkName ids' :=
  List.foldl_append

theorem recordFailure_apply_ne (threshold : ℕ) (f : Failures) (now : ℕ) {sinkName eventID key : String}
    (h : key ≠ failureKey sinkName eventID) : (f.recordFailure threshold now sinkName eventID).2 key = f key :=
  Function.update_of_ne h _ _

/-! ## The manager's part of an execution -/

/-- How an operation changes the records, if the manager answers it. -/
def managerStep (threshold : ℕ) (f : Failures) : (sinkSig V).Event → Failures → Prop
  | ⟨.recordFailure sink eventID, answer⟩, f' => ∃ now, (answer, f') = f.recordFailure threshold now sink eventID
  | ⟨.failureInfo sink eventID, answer⟩, f' => f' = f ∧ ∃ now, answer = f.failureInfo now sink eventID
  | ⟨.clearFailure sink eventID, _⟩, f' => f' = f.clearFailure sink eventID
  | ⟨.clearFailures sink eventIDs, _⟩, f' => f' = f.clearFailures sink eventIDs
  | _, f' => f' = f

/-- `f` before an execution whose operations the manager answers, `f'` after. -/
abbrev Manages (threshold : ℕ) : Failures → Trace V → Failures → Prop := Along (managerStep threshold)

/-- The manager keeps its records through the operation. -/
def KeepsRecords (x : (sinkSig V).Event) : Prop := ∀ threshold f f', managerStep threshold f x f' → f' = f

/-- The sink asks nothing of the manager. -/
def Apart (s : Sink V) : Prop := ∀ events, Ensures (fun _ => True) KeepsRecords (s.process events) fun _ => True

theorem destination_apart (name : String) (limit : Int) : Apart (destination name limit : Sink V) :=
  fun _ => Ensures.perform (S := sinkSig V) fun _ _ => ⟨fun _ _ _ h => h, trivial⟩

section Tidies

variable {threshold : ℕ} {name : String} {α β : Type}

/-- Whatever the program settles, the manager forgets, and nothing else. -/
def Tidies (threshold : ℕ) (name : String) (p : SinkM V α) : Prop :=
  ∀ t a f f', Exec p t a → Manages threshold f t f' → f' = f.clearFailures name ((settledEvents t).map (·.id))

theorem Tidies.pure {a : α} : Tidies threshold name (pure a : SinkM V α) := by
  intro t b f f' hx hm
  obtain ⟨rfl, rfl⟩ := exec_pure.mp hx
  exact along_nil.mp hm

theorem Tidies.bind {p : SinkM V α} {k : α → SinkM V β} (hp : Tidies threshold name p)
    (hk : ∀ a, Tidies threshold name (k a)) : Tidies threshold name (p >>= k) := by
  intro t b f f' hx hm
  obtain ⟨t₁, t₂, a, rfl, h₁, h₂⟩ := exec_bind.mp hx
  obtain ⟨m, hm₁, hm₂⟩ := along_append.mp hm
  rw [hk a _ _ _ _ h₂ hm₂, hp _ _ _ _ h₁ hm₁, settledEvents_append, List.map_append, clearFailures_append]

/-- An operation that settles nothing and of which the manager keeps no trace. -/
theorem Tidies.ask {o : Op V} (hs : ∀ r, settledBy ⟨o, r⟩ = none) (hk : ∀ r, KeepsRecords ⟨o, r⟩) :
    Tidies threshold name (ask o) := by
  intro t r f f' hx hm
  have ht : t = [⟨o, r⟩] := (exec_perform (S := sinkSig V)).mp hx
  subst ht
  obtain ⟨m, hstep, hm⟩ := along_cons.mp hm
  rw [along_nil.mp hm, hk r _ _ _ hstep, settledEvents_cons, hs r]
  rfl

theorem stalls_tidies (err : Err) : Tidies threshold name (stalls err : SinkM V Bool) := by
  unfold stalls
  split
  · exact Tidies.pure
  · split
    · exact Tidies.pure
    · exact Tidies.ask (fun _ => rfl) fun _ _ _ _ h => h

/-- Past a program that settles nothing, the records are as before it. -/
theorem Tidies.past {p : SinkM V α} {k : α → SinkM V β} (hp : Tidies threshold name p) (hs : Silent p) {t : Trace V}
    {b : β} {f f' : Failures} (hx : Exec (p >>= k) t b) (hm : Manages threshold f t f') :
    ∃ a t₂, settledEvents t = settledEvents t₂ ∧ Exec (k a) t₂ b ∧ Manages threshold f t₂ f' := by
  obtain ⟨t₁, t₂, a, rfl, h₁, h₂⟩ := exec_bind.mp hx
  obtain ⟨m, hm₁, hm₂⟩ := along_append.mp hm
  have hkeep : m = f := by
    rw [hp _ _ _ _ h₁ hm₁, hs _ _ h₁]
    rfl
  exact ⟨a, t₂, by rw [settledEvents_append, hs _ _ h₁, List.nil_append], h₂, hkeep ▸ hm₂⟩

/-- A delivery to the inner sink, with what follows: the records of the batch
are forgotten when it returned nil, and as before it when it did not. -/
theorem deliver_records {inner : Sink V} (hi : Delivers inner) (ha : Apart inner) {events : List (CDCEvent V)}
    {k : Option Err → SinkM V (Option Err)}
    (hnil : k none = do Gtc.ask (.clearFailures name (events.map (·.id))); return none) {t : Trace V} {b : Option Err}
    {f f' : Failures} (hx : Exec (inner.process events >>= k) t b) (hm : Manages threshold f t f') :
    f' = f.clearFailures name ((settledEvents t).map (·.id)) ∨
      ∃ err t₂, settledEvents t = settledEvents t₂ ∧ Exec (k (some err)) t₂ b ∧ Manages threshold f t₂ f' := by
  obtain ⟨t₁, t₂, r, rfl, h₁, h₂⟩ := exec_bind.mp hx
  obtain ⟨m, hm₁, hm₂⟩ := along_append.mp hm
  have hkeep : m = f := hm₁.const fun x hmem f f' h => (ha events t₁ r h₁ fun _ _ => trivial).1 x hmem _ f f' h
  subst hkeep
  rw [settledEvents_append]
  cases r with
  | none =>
    left
    rw [hnil] at h₂
    obtain ⟨_, t₃, rfl, h₃⟩ := exec_ask_bind.mp h₂
    obtain ⟨rfl, rfl⟩ := exec_pure.mp h₃
    obtain ⟨m', hstep, hm'⟩ := along_cons.mp hm₂
    have hclear : m' = m.clearFailures name (events.map (·.id)) := hstep
    rw [along_nil.mp hm', hclear, (hi events _ _ h₁).1 rfl, settledEvents_cons, settledEvents_nil]
    simp [settledBy]
  | some err =>
    right
    rw [(hi events _ _ h₁).2 (by simp), List.nil_append]
    exact ⟨err, t₂, rfl, h₂, hm₂⟩

theorem managerPark_tidies (event : CDCEvent V) (cause : Err) (attempts first : ℕ) :
    Tidies threshold name (managerPark name event cause attempts first) := by
  refine Tidies.bind (Tidies.ask (fun _ => rfl) fun _ _ _ _ h => h) fun now => ?_
  intro t b f f' hx hm
  obtain ⟨parkErr, t₁, rfl, h₁⟩ := exec_ask_bind.mp hx
  obtain ⟨m, hstep, hm₁⟩ := along_cons.mp hm
  obtain rfl : m = f := hstep
  cases parkErr with
  | some err =>
    obtain ⟨rfl, rfl⟩ := exec_pure.mp h₁
    exact along_nil.mp hm₁
  | none =>
    obtain ⟨_, t₂, rfl, h₂⟩ := exec_ask_bind.mp h₁
    obtain ⟨rfl, rfl⟩ := exec_pure.mp h₂
    obtain ⟨m', hclear, hm₂⟩ := along_cons.mp hm₁
    rw [along_nil.mp hm₂]
    exact hclear

theorem park_tidies (inner : Sink V) (event : CDCEvent V) (cause : Err) :
    Tidies threshold inner.name (park inner event cause) := by
  refine Tidies.bind (Tidies.ask (fun _ => rfl) fun _ _ _ _ h => h.1) fun info => ?_
  refine (managerPark_tidies event cause info.1 info.2).bind fun r => ?_
  cases r <;> exact Tidies.pure

theorem isolateHalf_tidies {inner : Sink V} (hi : Delivers inner) (ha : Apart inner)
    {isolate : List (CDCEvent V) → Err → SinkM V (Option Err)} {half : List (CDCEvent V)}
    (hrec : ∀ err, Tidies threshold inner.name (isolate half err)) :
    Tidies threshold inner.name (isolateHalf inner isolate half) := by
  intro t b f f' hx hm
  rcases deliver_records hi ha rfl hx hm with hclear | ⟨err, t₂, hset, h₂, hm₂⟩
  · exact hclear
  · have hfail : Tidies threshold inner.name (do if ← stalls err then return some err else isolate half err) := by
      refine (stalls_tidies err).bind fun stalled => ?_
      cases stalled with
      | true => exact Tidies.pure
      | false => exact hrec err
    rw [hset]
    exact hfail _ _ _ _ h₂ hm₂

theorem isolateFuel_tidies {inner : Sink V} (hi : Delivers inner) (ha : Apart inner) :
    ∀ (fuel : ℕ) (events : List (CDCEvent V)) (err : Err),
      Tidies threshold inner.name (isolateFuel inner fuel events err) := by
  intro fuel
  induction fuel with
  | zero => intro events err; exact Tidies.pure
  | succ fuel ih =>
    intro events err
    have halves : ∀ first second (k : Option Err → SinkM V (Option Err)), (∀ err, k (some err) = pure (some err)) →
        k none = isolateHalf inner (isolateFuel inner fuel) second →
        Tidies threshold inner.name (isolateHalf inner (isolateFuel inner fuel) first >>= k) := by
      intro first second k hsome hnone
      refine (isolateHalf_tidies hi ha fun err => ih _ err).bind fun r => ?_
      cases r with
      | some err => rw [hsome]; exact Tidies.pure
      | none => rw [hnone]; exact isolateHalf_tidies hi ha fun err => ih _ err
    rcases events with _ | ⟨event, _ | ⟨event', rest⟩⟩
    · exact halves _ _ _ (fun _ => rfl) rfl
    · exact park_tidies inner event err
    · exact halves _ _ _ (fun _ => rfl) rfl

end Tidies

/-! ## One delivery -/

/-- The records when a delivery starts to forget: it may have counted a failure
on the batch's first event. -/
def Counted (threshold : ℕ) (name : String) (events : List (CDCEvent V)) (f f₁ : Failures) : Prop :=
  f₁ = f ∨ ∃ first ∈ events.head?, ∃ now, f₁ = (f.recordFailure threshold now name first.id).2

theorem dlqSink_records {inner : Sink V} (hi : Delivers inner) (ha : Apart inner) {threshold : ℕ}
    {events : List (CDCEvent V)} {t : Trace V} {r : Option Err} {f f' : Failures}
    (hx : Exec ((dlqSink inner).process events) t r) (hm : Manages threshold f t f') :
    ∃ f₁, Counted threshold inner.name events f f₁ ∧
      f' = f₁.clearFailures inner.name ((settledEvents t).map (·.id)) := by
  simp only [dlqSink] at hx
  cases events with
  | nil => exact ⟨f, .inl rfl, Tidies.pure _ _ _ _ hx hm⟩
  | cons first rest =>
    rcases deliver_records hi ha rfl hx hm with hclear | ⟨err, t₁, hset, hx, hm⟩
    · exact ⟨f, .inl rfl, hclear⟩
    have hstalls : Tidies threshold inner.name (stalls err : SinkM V Bool) := stalls_tidies err
    obtain ⟨stalled, t₂, hset₂, hx, hm⟩ := hstalls.past (silent_stalls err) hx hm
    rw [hset, hset₂]
    have hisolate := @isolateFuel_tidies V threshold inner hi ha (first :: rest).length (first :: rest) err
    cases stalled with
    | true => exact ⟨f, .inl rfl, Tidies.pure _ _ _ _ hx hm⟩
    | false =>
      cases hperm : err.isPermanent with
      | true =>
        simp only [hperm] at hx
        exact ⟨f, .inl rfl, hisolate _ _ _ _ hx hm⟩
      | false =>
        simp only [hperm] at hx
        obtain ⟨⟨count, since, reached⟩, t₃, rfl, hx₃⟩ := exec_ask_bind.mp hx
        obtain ⟨f₁, ⟨now, hcount⟩, hm₃⟩ := along_cons.mp hm
        refine ⟨f₁, .inr ⟨first, rfl, now, congrArg Prod.snd hcount⟩, ?_⟩
        rw [settledEvents_cons]
        cases reached with
        | true => exact hisolate _ _ _ _ hx₃ hm₃
        | false => exact Tidies.pure _ _ _ _ hx₃ hm₃

theorem Counted.count_le {threshold : ℕ} {name : String} {events : List (CDCEvent V)} {f f₁ : Failures}
    (h : Counted threshold name events f f₁) (id : String) : f.count name id ≤ f₁.count name id := by
  rcases h with rfl | ⟨first, -, now, rfl⟩
  · exact Nat.le_refl _
  · rw [count_recordFailure]
    split <;> omega

theorem Counted.frame {threshold : ℕ} {name : String} {events : List (CDCEvent V)} {f f₁ : Failures}
    (h : Counted threshold name events f f₁) {key : String} (hkey : key ∉ (events.map (·.id)).map (failureKey name)) :
    f₁ key = f key := by
  rcases h with rfl | ⟨first, hfirst, now, rfl⟩
  · rfl
  · refine recordFailure_apply_ne threshold f now fun heq => hkey ?_
    rw [heq]
    exact List.mem_map_of_mem (List.mem_map_of_mem (List.mem_of_mem_head? hfirst))

/-- **Failure records are cleared exactly for settled events.** Whatever the
inner sink, the store, the clock and the context answer during one `Process` of
the dead-letter sink over records `f`: nil leaves no record of the batch; after
an error, an event that was neither accepted nor parked keeps its count, or has
a higher one; and the records of other sinks and of events outside the batch
stay as they were. -/
theorem failure_records_cleared (threshold : ℕ) (name : String) (hname : ':' ∉ name.toList) (limit : Int)
    (events : List (CDCEvent V)) (hids : (events.map (·.id)).Nodup) (f f' : Failures) (t : Trace V) (r : Option Err)
    (hx : Exec ((dlqSink (destination name limit)).process events) t r) (hm : Manages threshold f t f') :
    (r = none → ∀ e ∈ events, f' (failureKey name e.id) = none) ∧
    (r ≠ none → ∀ e ∈ events, e ∉ (settled t).flatten → f.count name e.id ≤ f'.count name e.id) ∧
    ∀ sink id, ':' ∉ sink.toList → (sink ≠ name ∨ id ∉ events.map (·.id)) →
      f' (failureKey sink id) = f (failureKey sink id) := by
  obtain ⟨f₁, hcounted, rfl⟩ : ∃ f₁, Counted threshold name events f f₁ ∧
      f' = f₁.clearFailures name ((settledEvents t).map (·.id)) :=
    dlqSink_records (destination_delivers name limit) (destination_apart name limit) hx hm
  obtain ⟨hnil, herr⟩ := dlqSink_accounts (destination_delivers name limit) events t r hx
  have hsub : ∀ e ∈ settledEvents t, e ∈ events := by
    intro e he
    cases r with
    | none => exact hnil rfl ▸ he
    | some err => exact (herr (by simp)).subset he
  refine ⟨fun hr e he => ?_, fun _ e he hunsettled => ?_, fun sink id hsink hother => ?_⟩
  · rw [clearFailures_apply, hnil hr, if_pos (List.mem_map_of_mem (List.mem_map_of_mem he))]
  · -- The IDs of the batch are distinct: no settled event has the ID of this one.
    have hid : e.id ∉ (settledEvents t).map (·.id) := by
      intro hmem
      obtain ⟨e', he', heq⟩ := List.mem_map.mp hmem
      exact hunsettled (List.inj_on_of_nodup_map hids (hsub e' he') he heq ▸ he')
    rw [count_clearFailures, if_neg hid]
    exact hcounted.count_le e.id
  · have hkey : failureKey sink id ∉ (events.map (·.id)).map (failureKey name) := by
      intro hmem
      obtain ⟨id', hid', heq⟩ := List.mem_map.mp hmem
      obtain ⟨rfl, rfl⟩ := (failureKey_eq_iff hname hsink).mp heq
      rcases hother with hne | hout
      · exact hne rfl
      · exact hout hid'
    have hkey' : failureKey sink id ∉ ((settledEvents t).map (·.id)).map (failureKey name) := fun hmem =>
      hkey (List.map_subset _ (List.map_subset _ hsub) hmem)
    rw [clearFailures_apply, if_neg hkey', hcounted.frame hkey]

/-- The batch of two whose second event is poison, with a failure counted on
each before, and one of another sink on the first. -/
def countedFailures : Failures := fun key =>
  if key = "s:0/1" then some ⟨1, 5⟩ else if key = "s:0/2" then some ⟨1, 7⟩ else if key = "r:0/1" then some ⟨2, 4⟩ else none

theorem failure_records_cleared_poison :
    ∃ f', Manages 3 countedFailures poisonTrace f' ∧ f' "s:0/1" = none ∧ f' "s:0/2" = none ∧ f' "r:0/1" = some ⟨2, 4⟩ := by
  have hm : Manages 3 countedFailures poisonTrace ((countedFailures.clearFailures "s" ["0/1"]).clearFailure "s" "0/2") :=
    .cons rfl (.cons rfl (.cons rfl (.cons rfl (.cons rfl (.cons rfl (.cons ⟨rfl, 7, by decide +kernel⟩ (.cons rfl (.cons rfl
      (.cons rfl .nil)))))))))
  have hx : Exec ((dlqSink (destination "s" 0)).process [bareEvent "0/1", bareEvent "0/2"]) poisonTrace none :=
    .ask (.ask (.ask (.ask (.ask (.ask (.ask (.ask (.ask (.ask .ret)))))))))
  obtain ⟨hnil, -, hframe⟩ := failure_records_cleared 3 "s" (by decide) 0 [bareEvent "0/1", bareEvent "0/2"] (by decide)
    countedFailures _ poisonTrace none hx hm
  refine ⟨_, hm, hnil rfl (bareEvent "0/1") (by simp), hnil rfl (bareEvent "0/2") (by simp), ?_⟩
  rw [show "r:0/1" = failureKey "r" "0/1" from rfl, hframe "r" "0/1" (by decide) (.inl (by decide))]
  decide +kernel

end Gtc
