/-
Redelivery to a webhook. Requests are made one after the other, up to the first
that fails; the receiver may have seen that one too. A receiver that drops the
event IDs it has seen, as the `X-GTC-Event-Id` header is there for, takes the
events in commit order, each once.
-/
import Gtc.Sink.Redelivery
import Gtc.Sink.Webhook

namespace Gtc

open Lib

variable {V : Type}

/-- The header a receiver tells deliveries apart by. -/
def WebhookRequest.eventID (r : WebhookRequest V) : Option String := r.headers.lookup "X-GTC-Event-Id"

namespace WebhookSink

variable {s : WebhookSink V}

/-- The sink takes the event's table. -/
def wants (s : WebhookSink V) (event : CDCEvent V) : Bool := s.shouldProcess event.schema event.table

theorem request_eventID (now : String) (event : CDCEvent V) : (s.request now event).eventID = some event.id := by
  simp [WebhookRequest.eventID, request, List.lookup_cons]

theorem deliver_sent {fate : WebhookFate} {event : CDCEvent V} {err : Option Err} {request : Option (WebhookRequest V)}
    (h : s.deliver fate event = (err, request)) :
    (∀ r ∈ request, r.eventID = some event.id) ∧ (err = none → request.isSome) := by
  unfold deliver at h
  split at h
  · cases h
    simp
  · split at h
    · cases h
      simp
    · cases h
      simp [request_eventID]

/-- The requests of a call are for the wanted events of its batch in order, for
all of them when it returns nil. -/
theorem process_sent {fates : ℕ → WebhookFate} {batch : List (CDCEvent V)} :
    ∀ {i : ℕ} {err : Option Err} {sent : List (WebhookRequest V)}, s.process fates i batch = (err, sent) →
      ∃ done, done <+: batch ∧ sent.map (·.eventID) = (done.filter s.wants).map (some ·.id) ∧ (err = none → done = batch) := by
  induction batch with
  | nil =>
    intro i err sent h
    cases h
    exact ⟨[], List.prefix_refl _, rfl, fun _ => rfl⟩
  | cons event batch ih =>
    intro i err sent h
    rw [process] at h
    split at h
    · next hskip =>
      obtain ⟨done, hdone, hsent, hall⟩ := ih h
      refine ⟨event :: done, List.cons_prefix_cons.mpr ⟨rfl, hdone⟩, ?_, fun herr => by rw [hall herr]⟩
      have hwants : s.wants event = false := by simpa [wants] using hskip
      rw [hsent, List.filter_cons_of_neg (by simp [hwants])]
    · next hskip =>
      have hwants : s.wants event = true := by simpa [wants] using hskip
      cases hdeliver : s.deliver (fates i) event with
      | mk r request =>
        obtain ⟨hid, hsome⟩ := deliver_sent hdeliver
        rw [hdeliver] at h
        cases r with
        | some err' =>
          cases h
          cases request with
          | none => exact ⟨[], List.nil_prefix, rfl, fun herr => (by cases herr)⟩
          | some req =>
            refine ⟨[event], List.cons_prefix_cons.mpr ⟨rfl, List.nil_prefix⟩, ?_, fun herr => (by cases herr)⟩
            simp [hid req rfl, hwants]
        | none =>
          cases h
          obtain ⟨done, hdone, hsent, hall⟩ := @ih (i + 1) _ _ rfl
          refine ⟨event :: done, List.cons_prefix_cons.mpr ⟨rfl, hdone⟩, ?_, fun herr => by rw [hall herr]⟩
          obtain ⟨req, rfl⟩ := Option.isSome_iff_exists.mp (hsome rfl)
          rw [List.map_append, hsent, List.filter_cons_of_pos hwants]
          simp [hid req rfl]

/-- What the receiver gets for an operation: the requests of a call that returns
nil, and those of a call that fails as far as they arrived. -/
inductive Receives (s : WebhookSink V) : List (WebhookRequest V) → (sinkSig V).Event → List (WebhookRequest V) → Prop
  | accepted {name batch fates sent got} : s.process fates 0 batch = (none, sent) →
      Receives s got ⟨.process name batch, none⟩ (got ++ sent)
  | failed {name batch fates err sent got} {arrived : List (WebhookRequest V)} :
      s.process fates 0 batch = (some err, sent) → arrived <+: sent →
      Receives s got ⟨.process name batch, some err⟩ (got ++ arrived)
  | other {x got} : (∀ name batch r, x ≠ ⟨.process name batch, r⟩) → Receives s got x got

theorem Receives.carriesOut {x : (sinkSig V).Event} {got got' : List (WebhookRequest V)} (h : s.Receives got x got') :
    ∃ done, CarriesOut (· <+: ·) x done ∧
      got'.map (·.eventID) = got.map (·.eventID) ++ (done.filter s.wants).map (some ·.id) := by
  cases h with
  | @accepted name batch fates sent got hsent =>
    obtain ⟨done, -, hids, hall⟩ := process_sent hsent
    obtain rfl := hall rfl
    exact ⟨done, .accepted, by rw [List.map_append, hids]⟩
  | @failed name batch fates err sent got arrived hsent harrived =>
    obtain ⟨done, hdone, hids, -⟩ := process_sent hsent
    have hstart : arrived.map (·.eventID) <+: (done.filter s.wants).map (some ·.id) := hids ▸ harrived.map _
    obtain ⟨l, hl, hmap⟩ := List.prefix_map_iff.mp hstart
    obtain ⟨done', hdone', rfl⟩ := List.prefix_filter_iff.mp hl
    exact ⟨done', .failed (hdone'.trans hdone), by rw [List.map_append, hmap]⟩
  | other hno => exact ⟨[], .other hno, by simp⟩

theorem log_of_receives {t : Trace V} : ∀ {got got' : List (WebhookRequest V)} {log : List (CDCEvent V)},
    Along s.Receives got t got' → got.map (·.eventID) = (log.filter s.wants).map (some ·.id) →
    ∃ log', Log (· <+: ·) log t log' ∧ got'.map (·.eventID) = (log'.filter s.wants).map (some ·.id) := by
  induction t with
  | nil =>
    intro got got' log h hgot
    obtain rfl := along_nil.mp h
    exact ⟨log, .nil, hgot⟩
  | cons x t ih =>
    intro got got' log h hgot
    obtain ⟨mid, hx, h⟩ := along_cons.mp h
    obtain ⟨done, hdone, hmid⟩ := hx.carriesOut
    obtain ⟨log', hlog', hgot'⟩ := @ih _ _ (log ++ done) h (by rw [hmid, hgot, List.filter_append, List.map_append])
    exact ⟨log', .cons ⟨done, hdone, rfl⟩ hlog', hgot'⟩

end WebhookSink

/-- **A receiver that drops event IDs it has seen takes the events in order.**
Over any life of a stream of events in which nothing is parked, and if the IDs of
the events the webhook takes tell them apart: the IDs in the order in which each
arrived first are those of the events in commit order, as far as any have
arrived, and that is at least as far as the stream is acknowledged. -/
theorem webhook_arrives_in_order (cfg : SinksConfig V) (hm : 0 ≤ cfg.maxRetries) (svc : CDCServiceConfig)
    (specs : List (SinkSpec V)) (i : ℕ) (spec : SinkSpec V) (hi : specs[i]? = some spec) (s : WebhookSink V)
    (events : List (CDCEvent V)) (pos : ℕ) (t : List (ℕ × (sinkSig V).Event))
    (hrun : StreamRun svc (specs.map (·.build cfg)) events pos t) (hpark : ∀ entry, (i, ⟨.park entry, none⟩) ∉ t)
    (got : List (WebhookRequest V)) (hgot : Along s.Receives [] (ofIndex i t) got)
    (hids : (((events.filterMap (spec.image svc)).filter s.wants).map (·.id)).Nodup) :
    ∃ m, arrivals (got.map (·.eventID)) = (((events.filterMap (spec.image svc)).filter s.wants).take m).map (some ·.id) ∧
      (((events.take pos).filterMap (spec.image svc)).filter s.wants).length ≤ m := by
  obtain ⟨log, hlog, hgot'⟩ := @WebhookSink.log_of_receives _ s _ [] got [] hgot rfl
  have hpick (l : List (CDCEvent V)) : l.filterMap (fun e => if s.wants e then some (some e.id) else none) =
      (l.filter s.wants).map (some ·.id) := by
    rw [← List.filterMap_eq_map, List.filterMap_filter]
    rfl
  have hred := (hrun.redelivery hm hi hpark hlog).filterMap (fun e => if s.wants e then some (some e.id) else none)
    fun _ _ hdone => hdone.filterMap _
  have hnodup : ((((events.filterMap (spec.image svc)).filter s.wants).map (some ·.id))).Nodup := by
    have := hids.map (f := some) fun a b h => Option.some.inj h
    rwa [List.map_map] at this
  rw [hpick, hpick, hpick, ← hgot', SinkSpec.imagesBefore] at hred
  obtain ⟨m, hm, harr⟩ := hred.arrivals_eq hnodup
  refine ⟨m, by rw [harr, List.map_take], ?_⟩
  rwa [take_filterMap, List.length_map] at hm

/-- A receiver of every table, without a secret. -/
def localHook : WebhookSink Unit := ⟨"http://localhost/hook", "", "", none, fun _ => none, none, fun _ _ _ => ""⟩

/-- The second request of the first call arrives, but its answer does not. -/
theorem webhook_arrives_in_order_again : ∃ (got : List (WebhookRequest Unit)) (m : ℕ),
    got.map (·.eventID) = ["0/1", "0/2", "0/1", "0/2", "0/2", "0/3"].map some ∧
    arrivals (got.map (·.eventID)) = ([bareEvent (V := Unit) "0/1", bareEvent "0/2", bareEvent "0/3"].take m).map (some ·.id) ∧
    3 ≤ m := by
  let ok : WebhookFate := ⟨"0", .ok (200, "200 OK", "")⟩
  let lost : Err := .wrap "post event 0/2: EOF" (.new "EOF")
  let r (id : String) : WebhookRequest Unit := localHook.request "0" (bareEvent id)
  have hfailed : localHook.process (fun i => if i = 0 then ok else ⟨"0", .error (.new "EOF")⟩) 0 [bareEvent "0/1", bareEvent "0/2"] =
      (some lost, [r "0/1", r "0/2"]) := by decide +kernel
  have hfirst : localHook.process (fun _ => ok) 0 [bareEvent "0/1", bareEvent "0/2"] = (none, [r "0/1", r "0/2"]) := by
    decide +kernel
  have hsecond : localHook.process (fun _ => ok) 0 [bareEvent "0/2", bareEvent "0/3"] = (none, [r "0/2", r "0/3"]) := by
    decide +kernel
  have hgot : Along localHook.Receives [] (ofIndex 0 (deliveredAgain "hook" lost (bareEvent "0/1") (bareEvent "0/2") (bareEvent "0/3")))
      ([] ++ [r "0/1", r "0/2"] ++ [r "0/1", r "0/2"] ++ [r "0/2", r "0/3"]) :=
    .cons (.other (by simp)) (.cons (.failed hfailed (List.prefix_refl _)) (.cons (.other (by simp)) (.cons (.other (by simp))
      (.cons (.other (by simp)) (.cons (.accepted hfirst) (.cons (.other (by simp)) (.cons (.other (by simp))
        (.cons (.accepted hsecond) (.cons (.other (by simp)) .nil)))))))))
  obtain ⟨m, h⟩ := webhook_arrives_in_order (plainSinks "hook") (by decide) ⟨true, []⟩ [plainSpec "hook"] 0
    (plainSpec "hook") rfl localHook [bareEvent "0/1", bareEvent "0/2", bareEvent "0/3"] 3 _
    (streamRun_deliveredAgain "hook" lost (.ask (.ask (.ask (.ask .ret))))) (deliveredAgain_not_parked _ _ _ _ _) _ hgot
    (by rw [image_plainSpec]; decide)
  exact ⟨[] ++ [r "0/1", r "0/2"] ++ [r "0/1", r "0/2"] ++ [r "0/2", r "0/3"], m, by decide +kernel, h⟩

end Gtc
