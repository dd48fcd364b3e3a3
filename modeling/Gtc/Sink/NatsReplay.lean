/-
Redelivery to JetStream.

A call publishes its messages in windows. It waits for a window to be
acknowledged before it sends the next, but within a window the server may persist
any of the messages. What a call that fails leaves in the stream is therefore all
of some windows and a part of one more (`Windowed`), and the calls that follow
publish the rest behind it. The stream ends up with every event once, in an order
that is the commit order up to a window.
-/
import Gtc.Sink.Nats
import Gtc.Sink.Redelivery

namespace Gtc

open Lib

variable {V : Type}

/-! ## One call -/

theorem accepted_sublist (fates : Fates) (i : ℕ) (msgs : List (NatsMsg V)) :
    List.Sublist (accepted fates i msgs) msgs := by
  induction msgs generalizing i with
  | nil => exact List.Sublist.refl _
  | cons msg msgs ih =>
    rw [accepted]
    split
    · exact (ih (i + 1)).cons_cons msg
    · exact (ih (i + 1)).cons msg

theorem accepted_eq_self {fates : Fates} {i : ℕ} {msgs : List (NatsMsg V)}
    (h : ∀ k < msgs.length, fates.persists (i + k) = true) : accepted fates i msgs = msgs := by
  induction msgs generalizing i with
  | nil => rfl
  | cons msg msgs ih =>
    have hrest : accepted fates (i + 1) msgs = msgs := ih fun k hk => by
      rw [Nat.add_assoc, Nat.add_comm 1 k]
      exact h (k + 1) (Nat.succ_lt_succ hk)
    have hfirst : fates.persists i = true := h 0 (Nat.succ_pos _)
    rw [accepted, if_pos hfirst, hrest]

/-- The windows before the one that fails are persisted. -/
theorem publishWindows_windowed (fates : Fates) {fuel : ℕ} {msgs : List (NatsMsg V)} (hfuel : msgs.length ≤ fuel)
    (start : ℕ) (js : JetStream V) :
    ∃ done, Windowed publishWindowSize done msgs ∧
      (publishWindows fates fuel start msgs js).2 = done.foldl JetStream.persist js ∧
      ((publishWindows fates fuel start msgs js).1 = none → done = msgs) := by
  induction fuel generalizing start msgs js with
  | zero =>
    obtain rfl := List.eq_nil_of_length_eq_zero (Nat.le_zero.mp hfuel)
    exact ⟨[], windowed_nil _ _, rfl, fun _ => rfl⟩
  | succ fuel ih =>
    cases hmsgs : msgs with
    | nil => exact ⟨[], windowed_nil _ _, rfl, fun _ => rfl⟩
    | cons msg rest =>
      rw [← hmsgs]
      obtain ⟨sent, unsent, hwindow, hjs, hok⟩ := publishWindow_spec fates start (msgs.take publishWindowSize) js
      have hne : msgs.isEmpty = false := by rw [hmsgs]; rfl
      unfold publishWindows
      simp only [hne, Bool.false_eq_true, if_false]
      split
      · next err js' hout =>
        rw [hout] at hjs
        refine ⟨accepted fates start sent, ?_, hjs, fun h => (by cases h)⟩
        refine ⟨[], msgs.take publishWindowSize, msgs.drop publishWindowSize, accepted fates start sent,
          by rw [List.nil_append, List.take_append_drop], List.length_take_le _ _, ?_, rfl⟩
        rw [hwindow]
        exact (accepted_sublist fates start sent).trans (List.sublist_append_left sent unsent)
      · next js' hout =>
        rw [hout] at hjs hok
        obtain ⟨rfl, hpersisted⟩ := hok rfl
        rw [List.append_nil] at hwindow
        rw [accepted_eq_self hpersisted, ← hwindow] at hjs
        have hjs : js' = (msgs.take publishWindowSize).foldl JetStream.persist js := hjs
        have hless : (msgs.drop publishWindowSize).length ≤ fuel := by
          have hpos : 0 < publishWindowSize := by decide
          have hsome : 0 < msgs.length := by rw [hmsgs]; exact Nat.succ_pos _
          rw [List.length_drop]
          omega
        obtain ⟨done, hdone, hjs', hall⟩ := ih hless (start + publishWindowSize) js'
        refine ⟨msgs.take publishWindowSize ++ done, ?_, by rw [hjs', hjs, List.foldl_append], fun h => ?_⟩
        · have := hdone.append_left (msgs.take publishWindowSize)
          rwa [List.take_append_drop] at this
        · rw [hall h, List.take_append_drop]

theorem NatsSink.process_windowed {s : NatsSink V} {fates : Fates} {batch : List (CDCEvent V)} {js js' : JetStream V}
    {err : Option Err} (h : s.process fates batch js = (err, js')) :
    ∃ msgs : List (NatsMsg V), Windowed publishWindowSize (msgs.map (·.event)) (batch.filter s.shouldProcess) ∧
      js' = msgs.foldl JetStream.persist js ∧ (err = none → msgs.map (·.event) = batch.filter s.shouldProcess) := by
  unfold NatsSink.process at h
  cases hmsgs : s.messages batch with
  | error err' =>
    rw [hmsgs] at h
    cases h
    exact ⟨[], windowed_nil _ _, rfl, fun herr => (by cases herr)⟩
  | ok msgs =>
    rw [hmsgs] at h
    have h : publishWindows fates msgs.length 0 msgs js = (err, js') := h
    obtain ⟨done, hdone, hjs, hall⟩ := publishWindows_windowed fates (Nat.le_refl msgs.length) 0 js
    rw [h] at hjs hall
    rw [← NatsSink.messages_events hmsgs]
    exact ⟨done, hdone.map _, hjs, fun herr => by rw [hall herr]⟩

/-! ## The stream -/

namespace NatsSink

/-- What an operation does to the stream. -/
inductive Stores (s : NatsSink V) : JetStream V → (sinkSig V).Event → JetStream V → Prop
  | process {name batch fates err js js'} : s.process fates batch js = (err, js') →
      Stores s js ⟨.process name batch, err⟩ js'
  | other {x js} : (∀ name batch r, x ≠ ⟨.process name batch, r⟩) → Stores s js x js

/-- What a call that fails may have published of its batch. -/
def Leaves (s : NatsSink V) (done batch : List (CDCEvent V)) : Prop :=
  Windowed publishWindowSize (done.filter s.shouldProcess) (batch.filter s.shouldProcess)

variable [DecidableEq V] {s : NatsSink V} {known : Set (CDCEvent V)}

theorem events_foldl_persist (hids : Set.InjOn CDCEvent.id known) {msgs : List (NatsMsg V)} :
    ∀ {js : JetStream V}, (∀ e ∈ js.events, e ∈ known) → (∀ msg ∈ msgs, msg.event ∈ known) →
      (msgs.foldl JetStream.persist js).events = (msgs.map (·.event)).foldl arrive js.events := by
  induction msgs with
  | nil => exact fun _ _ => rfl
  | cons msg msgs ih =>
    intro js hjs hmsgs
    have hpersist := JetStream.events_persist hids hjs (hmsgs msg List.mem_cons_self)
    rw [List.foldl_cons, List.map_cons, List.foldl_cons, ← hpersist]
    refine ih (fun e he => ?_) fun m hm => hmsgs m (List.mem_cons_of_mem _ hm)
    rw [hpersist, mem_arrive] at he
    rcases he with he | rfl
    · exact hjs e he
    · exact hmsgs msg List.mem_cons_self

/-- An operation publishes a part of its batch, behind what is there. -/
theorem Stores.carriesOut (hids : Set.InjOn CDCEvent.id known) {x : (sinkSig V).Event} {js js' : JetStream V}
    (h : s.Stores js x js') (hjs : ∀ e ∈ js.events, e ∈ known)
    (hbatch : ∀ name batch r, x = ⟨.process name batch, r⟩ → ∀ e ∈ batch.filter s.shouldProcess, e ∈ known) :
    ∃ done, CarriesOut s.Leaves x done ∧ (∀ e ∈ done.filter s.shouldProcess, e ∈ known) ∧
      js'.events = (done.filter s.shouldProcess).foldl arrive js.events := by
  cases h with
  | @process name batch fates err _ _ h =>
    have hknown := hbatch name batch err rfl
    obtain ⟨msgs, hwindowed, rfl, hall⟩ := process_windowed h
    have hmsgs : ∀ msg ∈ msgs, msg.event ∈ known := fun msg hm =>
      hknown _ (hwindowed.subset (List.mem_map_of_mem hm))
    have hstored := events_foldl_persist hids hjs hmsgs
    cases err with
    | none => exact ⟨batch, .accepted, hknown, by rw [hstored, hall rfl]⟩
    | some err =>
      have hfilter : (msgs.map (·.event)).filter s.shouldProcess = msgs.map (·.event) :=
        List.filter_eq_self.mpr fun e he => (List.mem_filter.mp (hwindowed.subset he)).2
      refine ⟨msgs.map (·.event), .failed ?_, ?_, by rw [hfilter, hstored]⟩
      · rw [Leaves, hfilter]
        exact hwindowed
      · rw [hfilter]
        exact fun e he => hknown e (hwindowed.subset he)
  | other hno => exact ⟨[], .other hno, by simp, rfl⟩

theorem log_of_stores (hids : Set.InjOn CDCEvent.id known) {t : Trace V} :
    ∀ {js js' : JetStream V} {log : List (CDCEvent V)}, Along s.Stores js t js' →
      (∀ name batch r, ⟨.process name batch, r⟩ ∈ t → ∀ e ∈ batch.filter s.shouldProcess, e ∈ known) →
      (∀ e ∈ log.filter s.shouldProcess, e ∈ known) → js.events = arrivals (log.filter s.shouldProcess) →
      ∃ log', Log s.Leaves log t log' ∧ (∀ e ∈ log'.filter s.shouldProcess, e ∈ known) ∧
        js'.events = arrivals (log'.filter s.shouldProcess) := by
  induction t with
  | nil =>
    intro js js' log h _ hlog hjs
    obtain rfl := along_nil.mp h
    exact ⟨log, .nil, hlog, hjs⟩
  | cons x t ih =>
    intro js js' log h hbatches hlog hjs
    obtain ⟨mid, hx, h⟩ := along_cons.mp h
    obtain ⟨done, hdone, hknown, hmid⟩ := hx.carriesOut hids (fun e he => hlog e (mem_arrivals.mp (hjs ▸ he)))
      fun name batch r hxr => hbatches name batch r (hxr ▸ List.mem_cons_self)
    have hlog' : ∀ e ∈ (log ++ done).filter s.shouldProcess, e ∈ known := fun e he => by
      rw [List.filter_append, List.mem_append] at he
      exact he.elim (hlog e) (hknown e)
    obtain ⟨log', hrest, hknown', hjs'⟩ := ih h
      (fun name batch r hm => hbatches name batch r (List.mem_cons_of_mem x hm)) hlog'
      (by rw [hmid, hjs, List.filter_append, arrivals, arrivals, List.foldl_append])
    exact ⟨log', .cons ⟨done, hdone, rfl⟩ hrest, hknown', hjs'⟩

end NatsSink

/-- **JetStream holds every event once, in commit order up to a window.** Over any
life of a stream of events in which nothing is parked, as long as the duplicate
window lasts, and if the IDs of the events the sink publishes tell them apart:
what is stored is published events, each once and every one that is acknowledged,
and an event is stored only after those that were committed 1024 published events
before it, or more. -/
theorem jetstream_holds_once [DecidableEq V] (cfg : SinksConfig V) (hm : 0 ≤ cfg.maxRetries) (svc : CDCServiceConfig)
    (specs : List (SinkSpec V)) (i : ℕ) (spec : SinkSpec V) (hi : specs[i]? = some spec) (s : NatsSink V)
    (events : List (CDCEvent V)) (pos : ℕ) (t : List (ℕ × (sinkSig V).Event))
    (hrun : StreamRun svc (specs.map (·.build cfg)) events pos t) (hpark : ∀ entry, (i, ⟨.park entry, none⟩) ∉ t)
    (js : JetStream V) (hjs : Along s.Stores {} (ofIndex i t) js)
    (hids : (((events.filterMap (spec.image svc)).filter s.shouldProcess).map (·.id)).Nodup) :
    js.events.Nodup ∧ (∀ e ∈ js.events, e ∈ (events.filterMap (spec.image svc)).filter s.shouldProcess) ∧
      (∀ e ∈ ((events.take pos).filterMap (spec.image svc)).filter s.shouldProcess, e ∈ js.events) ∧
      ∀ k, Within publishWindowSize ((events.filterMap (spec.image svc)).filter s.shouldProcess) (js.events.take k) := by
  have hinj : Set.InjOn CDCEvent.id {e | e ∈ (events.filterMap (spec.image svc)).filter s.shouldProcess} :=
    fun a ha b hb => List.inj_on_of_nodup_map hids ha hb
  have hbatches : ∀ name batch r, ⟨.process name batch, r⟩ ∈ ofIndex i t → ∀ e ∈ batch.filter s.shouldProcess,
      e ∈ (events.filterMap (spec.image svc)).filter s.shouldProcess := fun name batch r hmem e he => by
    obtain ⟨hin, hshould⟩ := List.mem_filter.mp he
    exact List.mem_filter.mpr ⟨hrun.batch_subset hm hi name batch r (mem_ofIndex.mp hmem) hin, hshould⟩
  obtain ⟨log, hlog, hknown, hstored⟩ := @NatsSink.log_of_stores _ _ s _ hinj _ {} js [] hjs hbatches (by simp) rfl
  have hguard : ∀ l : List (CDCEvent V), l.filterMap (Option.guard s.shouldProcess) = l.filter s.shouldProcess :=
    fun l => congrFun List.filterMap_eq_filter l
  have hpart : ∀ done piece, s.Leaves done piece → Windowed publishWindowSize
      (done.filterMap (Option.guard s.shouldProcess)) (piece.filterMap (Option.guard s.shouldProcess)) := by
    intro done piece h
    rw [hguard, hguard]
    exact h
  have hred := hrun.redelivery hm hi hpark hlog
  have hwindowed := hred.filterMap _ hpart
  simp only [hguard] at hwindowed
  rw [hstored]
  refine ⟨nodup_arrivals _, fun e he => hknown e (mem_arrivals.mp he), fun e he => ?_,
    hwindowed.arrivals_within hids.of_map⟩
  obtain ⟨hin, hshould⟩ := List.mem_filter.mp he
  have hmem := hred.mem_log e (by rwa [SinkSpec.imagesBefore, take_filterMap])
  exact mem_arrivals.mpr (List.mem_filter.mpr ⟨hmem, hshould⟩)

/-- A sink of every table. -/
def localNats : NatsSink Unit := ⟨none, "cdc", fun _ => none⟩

/-- Of the first call the second message is persisted and the first is not, so that
they are stored the other way round. -/
theorem jetstream_holds_once_again : ∃ js : JetStream Unit,
    js.events = [bareEvent "0/2", bareEvent "0/1", bareEvent "0/3"] ∧ js.events.Nodup ∧
    (∀ e ∈ [bareEvent "0/1", bareEvent "0/2", bareEvent "0/3"], e ∈ js.events) ∧
    ∀ k, Within publishWindowSize [bareEvent "0/1", bareEvent "0/2", bareEvent "0/3"] (js.events.take k) := by
  let fates : Fates := fun i => if i = 0 then .ok (.err false (.new "no response from stream")) else .ok .ok
  let first : List (CDCEvent Unit) := [bareEvent "0/1", bareEvent "0/2"]
  let js₁ := (localNats.process fates first {}).2
  let js₂ := (localNats.process (fun _ => .ok .ok) first js₁).2
  let js₃ := (localNats.process (fun _ => .ok .ok) [bareEvent "0/2", bareEvent "0/3"] js₂).2
  let lost : Err := .wrap "publish cdc.public.users (event 0/1): no response from stream" (.new "no response from stream")
  have hfailed : localNats.process fates first {} = (some lost, js₁) := Prod.ext (by decide +kernel) rfl
  have hfirst : localNats.process (fun _ => .ok .ok) first js₁ = (none, js₂) := Prod.ext (by decide +kernel) rfl
  have hsecond : localNats.process (fun _ => .ok .ok) [bareEvent "0/2", bareEvent "0/3"] js₂ = (none, js₃) :=
    Prod.ext (by decide +kernel) rfl
  have hjs : Along localNats.Stores {} (ofIndex 0 (deliveredAgain "nats" lost (bareEvent "0/1") (bareEvent "0/2") (bareEvent "0/3"))) js₃ :=
    .cons (.other (by simp)) (.cons (.process hfailed) (.cons (.other (by simp)) (.cons (.other (by simp))
      (.cons (.other (by simp)) (.cons (.process hfirst) (.cons (.other (by simp)) (.cons (.other (by simp))
        (.cons (.process hsecond) (.cons (.other (by simp)) .nil)))))))))
  obtain ⟨hnodup, -, hstored, hwithin⟩ := jetstream_holds_once (plainSinks "nats") (by decide) ⟨true, []⟩ [plainSpec "nats"] 0
    (plainSpec "nats") rfl localNats [bareEvent "0/1", bareEvent "0/2", bareEvent "0/3"] 3 _
    (streamRun_deliveredAgain "nats" lost (.ask (.ask (.ask (.ask .ret))))) (deliveredAgain_not_parked _ _ _ _ _) _ hjs
    (by rw [image_plainSpec]; decide)
  rw [image_plainSpec] at hwithin hstored
  exact ⟨js₃, by decide +kernel, hnodup, hstored, hwithin⟩

end Gtc
