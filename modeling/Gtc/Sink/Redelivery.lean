/-
What a destination sees of a stream of events that is delivered at least once.

`handleBatch` is called for one piece of the stream after the other. A call that
fails is made again, and a new session starts over from wherever the slot
stands, at or before the first event that was not acknowledged (`Stream`).
Within a call the slices, the retries and the bisection make many calls of the
destination's `Process`; each of them is for the events that come next
(`Takes`). So all that a destination carries out over the life of the stream is
a redelivery of the events it is sent (`Stream.redelivery`).
-/
import Gtc.Lib.Redelivery
import Gtc.Lib.Threads
import Gtc.Sink.NoLoss

namespace Gtc

open Lib

variable {V : Type}

/-! ## One call -/

/-- What an operation does to the events that are still to be settled: a batch
that is accepted and an event that is parked come first among them, and a batch
that fails stays. -/
inductive Takes : List (CDCEvent V) → (sinkSig V).Event → List (CDCEvent V) → Prop
  | accepted {name batch rest} : Takes (batch ++ rest) ⟨.process name batch, none⟩ rest
  | failed {name batch rest err} : Takes (batch ++ rest) ⟨.process name batch, some err⟩ (batch ++ rest)
  | parked {entry event rest} : entry.event = event → Takes (event :: rest) ⟨.park entry, none⟩ rest
  | other {x rest} : (∀ name batch r, x ≠ ⟨.process name batch, r⟩) → (∀ entry, x ≠ ⟨.park entry, none⟩) →
      Takes rest x rest

/-- A program that calls no destination and parks nothing. -/
def Bystands {α : Type} (p : SinkM V α) : Prop := ∀ t a, Exec p t a → ∀ rest, Along Takes rest t rest

/-- A call that works through its events from the front: all of them when it
returns nil, and all but those that `onErr` allows when it returns an error. -/
def Advances (onErr : List (CDCEvent V) → Prop) (p : SinkM V (Option Err)) (events : List (CDCEvent V)) : Prop :=
  ∀ t r, Exec p t r → ∀ rest, ∃ left, Along Takes (events ++ rest) t (left ++ rest) ∧
    (r = none → left = []) ∧ (r ≠ none → onErr left)

/-- A call that leaves all of its events when it fails. -/
abbrev Tries (p : SinkM V (Option Err)) (events : List (CDCEvent V)) : Prop := Advances (· = events) p events

abbrev WorksThrough (p : SinkM V (Option Err)) (events : List (CDCEvent V)) : Prop := Advances (fun _ => True) p events

variable {α : Type} {p : SinkM V α} {onErr : List (CDCEvent V) → Prop} {events : List (CDCEvent V)} {inner : Sink V}
  {cfg : SinksConfig V}

theorem Bystands.pure {a : α} : Bystands (pure a : SinkM V α) := by
  intro t b h rest
  rw [(exec_pure.mp h).1]
  exact .nil

theorem Bystands.bind {β : Type} {f : α → SinkM V β} (hp : Bystands p) (hf : ∀ a, Bystands (f a)) :
    Bystands (p >>= f) := by
  intro t b h rest
  obtain ⟨t₁, t₂, a, rfl, h₁, h₂⟩ := exec_bind.mp h
  exact along_append.mpr ⟨rest, hp _ _ h₁ rest, hf a _ _ h₂ rest⟩

theorem Bystands.ask {o : Op V} (hprocess : ∀ name batch, o ≠ .process name batch) (hpark : ∀ entry, o ≠ .park entry) :
    Bystands (ask o) := by
  intro t r hx rest
  have ht : t = [⟨o, r⟩] := (exec_perform (S := sinkSig V)).mp hx
  subst ht
  refine along_cons.mpr ⟨rest, .other (fun name batch r h => ?_) (fun entry h => ?_), .nil⟩
  · exact hprocess name batch (congrArg Sigma.fst h)
  · exact hpark entry (congrArg Sigma.fst h)

theorem Advances.of_bystands_bind
    {f : α → SinkM V (Option Err)} (hp : Bystands p) (hf : ∀ a, Advances onErr (f a) events) :
    Advances onErr (p >>= f) events := by
  intro t r h rest
  obtain ⟨t₁, t₂, a, rfl, h₁, h₂⟩ := exec_bind.mp h
  obtain ⟨left, hleft, hr⟩ := hf a _ _ h₂ rest
  exact ⟨left, along_append.mpr ⟨_, hp _ _ h₁ _, hleft⟩, hr⟩

theorem Advances.mono {onErr' : List (CDCEvent V) → Prop} {p : SinkM V (Option Err)}
    (h : Advances onErr p events) (hle : ∀ left, onErr left → onErr' left) : Advances onErr' p events := by
  intro t r hx rest
  obtain ⟨left, hleft, hnil, herr⟩ := h t r hx rest
  exact ⟨left, hleft, hnil, fun hr => hle left (herr hr)⟩

theorem tries_some (err : Err) (events : List (CDCEvent V)) : Tries (pure (some err) : SinkM V (Option Err)) events := by
  intro t r h rest
  obtain ⟨rfl, rfl⟩ := exec_pure.mp h
  exact ⟨events, .nil, fun hr => (by cases hr), fun _ => rfl⟩

theorem tries_nil : Advances onErr (pure none : SinkM V (Option Err)) [] := by
  intro t r h rest
  obtain ⟨rfl, rfl⟩ := exec_pure.mp h
  exact ⟨[], .nil, fun _ => rfl, fun hr => absurd rfl hr⟩

/-- A program that bystands and returns nil. -/
def BystandsNil (p : SinkM V (Option Err)) : Prop := Bystands p ∧ ∀ t r, Exec p t r → r = none

theorem bystandsNil_pure : BystandsNil (pure none : SinkM V (Option Err)) :=
  ⟨.pure, fun _ _ h => (exec_pure.mp h).2⟩

theorem BystandsNil.bind {f : α → SinkM V (Option Err)} (hp : Bystands p)
    (hf : ∀ a, BystandsNil (f a)) : BystandsNil (p >>= f) := by
  refine ⟨hp.bind fun a => (hf a).1, fun t r h => ?_⟩
  obtain ⟨t₁, t₂, a, rfl, -, h₂⟩ := exec_bind.mp h
  exact (hf a).2 _ _ h₂

/-- A call that leaves its events when it fails, and another for the same
events then. -/
theorem Tries.retry {p : SinkM V (Option Err)} {f : Option Err → SinkM V (Option Err)}
    (hp : Tries p events) (hnil : BystandsNil (f none))
    (herr : ∀ err, Advances onErr (f (some err)) events) : Advances onErr (p >>= f) events := by
  intro t r h rest
  obtain ⟨t₁, t₂, r₁, rfl, h₁, h₂⟩ := exec_bind.mp h
  obtain ⟨left, hleft, hnone, hsome⟩ := hp _ _ h₁ rest
  cases r₁ with
  | none =>
    obtain rfl := hnil.2 _ _ h₂
    obtain rfl := hnone rfl
    exact ⟨[], along_append.mpr ⟨_, hleft, hnil.1 _ _ h₂ _⟩, fun _ => rfl, fun hr => absurd rfl hr⟩
  | some err =>
    obtain rfl := hsome (by simp)
    obtain ⟨left', hleft', hr⟩ := herr err _ _ h₂ rest
    exact ⟨left', along_append.mpr ⟨_, hleft, hleft'⟩, hr⟩

theorem WorksThrough.seq {p q : SinkM V (Option Err)} {xs ys : List (CDCEvent V)} (hp : WorksThrough p xs)
    (hq : WorksThrough q ys) :
    WorksThrough (do match ← p with
                     | some err => return some err
                     | none => q) (xs ++ ys) := by
  intro t r h rest
  obtain ⟨t₁, t₂, r₁, rfl, h₁, h₂⟩ := exec_bind.mp h
  obtain ⟨left, hleft, hnone, -⟩ := hp _ _ h₁ (ys ++ rest)
  rw [List.append_assoc]
  cases r₁ with
  | none =>
    obtain rfl := hnone rfl
    obtain ⟨left', hleft', hr⟩ := hq _ _ h₂ rest
    exact ⟨left', along_append.mpr ⟨_, hleft, hleft'⟩, hr⟩
  | some err =>
    obtain ⟨rfl, rfl⟩ := exec_pure.mp h₂
    refine ⟨left ++ ys, ?_, fun hr => (by cases hr), fun _ => trivial⟩
    rw [List.append_nil, List.append_assoc]
    exact hleft

/-! ## The layers -/

theorem destination_tries (name : String) (limit : Int) (events : List (CDCEvent V)) :
    Tries ((destination (V := V) name limit).process events) events := by
  intro t r h rest
  have ht : t = [⟨.process name events, r⟩] := (exec_perform (S := sinkSig V)).mp h
  subst ht
  cases r with
  | none => exact ⟨[], along_cons.mpr ⟨_, .accepted, .nil⟩, fun _ => rfl, fun hr => absurd rfl hr⟩
  | some err => exact ⟨events, along_cons.mpr ⟨_, .failed, .nil⟩, fun hr => (by cases hr), fun _ => rfl⟩

theorem bystands_ctxErr : Bystands (ask (.ctxErr : Op V)) := .ask (by simp) (by simp)

theorem bystands_stalls (err : Err) : Bystands (stalls err : SinkM V Bool) := by
  unfold stalls
  split
  · exact .pure
  · split
    · exact .pure
    · exact bystands_ctxErr

theorem retryLoop_tries (hi : ∀ events, Tries (inner.process events) events) (events : List (CDCEvent V)) :
    ∀ (left : ℕ) (lastErr : Option Err), Tries (retryLoop inner events lastErr (left + 1)) events := by
  intro left
  induction left with
  | zero =>
    intro lastErr
    rw [retryLoop]
    refine (hi events).retry bystandsNil_pure fun err => ?_
    dsimp only
    split
    · exact tries_some err events
    · refine .of_bystands_bind bystands_ctxErr fun b => ?_
      split <;> exact tries_some err events
  | succ left ih =>
    intro lastErr
    rw [retryLoop]
    refine (hi events).retry bystandsNil_pure fun err => ?_
    dsimp only
    split
    · exact tries_some err events
    refine .of_bystands_bind bystands_ctxErr fun b => ?_
    split
    · exact tries_some err events
    refine .of_bystands_bind (.ask (by simp) (by simp)) fun b' => ?_
    split
    · exact tries_some err events
    · exact ih (some err)

theorem execute_tries {req : SinkM V (Option Err)} (hr : Tries req events) (name : String) :
    Tries (execute name req) events := by
  refine .of_bystands_bind (.ask (by simp) (by simp)) fun granted => ?_
  cases granted with
  | error err => exact tries_some err events
  | ok generation =>
    refine hr.retry ?_ fun err => ?_
    · exact BystandsNil.bind (.ask (by simp) (by simp)) fun _ => bystandsNil_pure
    · exact .of_bystands_bind (.ask (by simp) (by simp)) fun _ => tries_some err events

theorem resilientSink_tries (hi : ∀ events, Tries (inner.process events) events) {maxRetries : Int}
    (hm : 0 ≤ maxRetries) (events : List (CDCEvent V)) : Tries ((resilientSink inner maxRetries).process events) events := by
  simp only [resilientSink]
  split
  · next he =>
    rw [List.isEmpty_iff.mp he]
    exact tries_nil
  · obtain ⟨left, hl⟩ : ∃ left : ℕ, (maxRetries + 1).toNat = left + 1 := ⟨maxRetries.toNat, by omega⟩
    have hreq : Tries (processWithRetry inner maxRetries events) events := by
      rw [processWithRetry, hl]
      exact retryLoop_tries hi events left none
    refine (execute_tries hreq inner.name).retry bystandsNil_pure fun err => ?_
    dsimp only
    split <;> exact tries_some _ events

theorem worksThrough_some (err : Err) (events : List (CDCEvent V)) :
    WorksThrough (pure (some err) : SinkM V (Option Err)) events := (tries_some err events).mono fun _ _ => trivial

theorem park_worksThrough (inner : Sink V) (event : CDCEvent V) (cause : Err) :
    WorksThrough (park inner event cause) [event] := by
  refine .of_bystands_bind (.ask (by simp) (by simp)) fun info => ?_
  have hmanager : Tries (managerPark inner.name event cause info.1 info.2) [event] := by
    refine .of_bystands_bind (.ask (by simp) (by simp)) fun now => ?_
    intro t r h rest
    obtain ⟨parkErr, t', rfl, hx⟩ := exec_ask_bind.mp h
    cases parkErr with
    | some err =>
      obtain ⟨rfl, rfl⟩ := exec_pure.mp hx
      exact ⟨[event], along_cons.mpr ⟨_, .other (by simp) (by simp), .nil⟩, fun hr => (by cases hr), fun _ => rfl⟩
    | none =>
      have hq : BystandsNil (do ask (.clearFailure inner.name event.id : Op V); pure none) :=
        .bind (.ask (by simp) (by simp)) fun _ => bystandsNil_pure
      obtain rfl := hq.2 _ _ hx
      exact ⟨[], along_cons.mpr ⟨rest, .parked rfl, hq.1 _ _ hx rest⟩, fun _ => rfl, fun hr => absurd rfl hr⟩
  exact hmanager.retry bystandsNil_pure fun err => worksThrough_some _ _

theorem isolateHalf_worksThrough (hi : ∀ events, Tries (inner.process events) events)
    {isolate : List (CDCEvent V) → Err → SinkM V (Option Err)}
    (hrec : ∀ events err, WorksThrough (isolate events err) events) (half : List (CDCEvent V)) :
    WorksThrough (isolateHalf inner isolate half) half := by
  refine (hi half).retry ?_ fun err => ?_
  · exact BystandsNil.bind (.ask (by simp) (by simp)) fun _ => bystandsNil_pure
  · refine .of_bystands_bind (bystands_stalls err) fun stalled => ?_
    cases stalled with
    | true => exact worksThrough_some err half
    | false => exact hrec half err

theorem isolateFuel_worksThrough (hi : ∀ events, Tries (inner.process events) events) :
    ∀ (fuel : ℕ) (events : List (CDCEvent V)) (err : Err), WorksThrough (isolateFuel inner fuel events err) events := by
  intro fuel
  induction fuel with
  | zero => intro events err; exact worksThrough_some err events
  | succ fuel ih =>
    intro events err
    have halves : WorksThrough _ events := List.take_append_drop (events.length / 2) events ▸
      (isolateHalf_worksThrough hi ih (events.take (events.length / 2))).seq
        (isolateHalf_worksThrough hi ih (events.drop (events.length / 2)))
    match events with
    | [event] => exact park_worksThrough inner event err
    | [] | _ :: _ :: _ => exact halves

theorem dlqSink_worksThrough (hi : ∀ events, Tries (inner.process events) events)
    (events : List (CDCEvent V)) : WorksThrough ((dlqSink inner).process events) events := by
  simp only [dlqSink]
  cases events with
  | nil => exact tries_nil
  | cons first rest =>
    refine (hi _).retry ?_ fun err => ?_
    · exact BystandsNil.bind (.ask (by simp) (by simp)) fun _ => bystandsNil_pure
    · refine .of_bystands_bind (bystands_stalls err) fun stalled => ?_
      have hisolate := isolateFuel_worksThrough hi (first :: rest).length (first :: rest) err
      cases stalled with
      | true => exact worksThrough_some err _
      | false =>
        cases err.isPermanent with
        | true => exact hisolate
        | false =>
          refine .of_bystands_bind (.ask (by simp) (by simp)) fun record => ?_
          cases record.2.2 with
          | true => exact hisolate
          | false => exact worksThrough_some err _

theorem wrapResilienceAndDLQ_worksThrough (hm : 0 ≤ cfg.maxRetries) (name : String) (limit : Int)
    (events : List (CDCEvent V)) :
    WorksThrough ((wrapResilienceAndDLQ cfg (destination name limit)).process events) events := by
  have hd := resilientSink_tries (destination_tries (V := V) name limit) hm
  unfold wrapResilienceAndDLQ
  cases cfg.dlq with
  | true => exact dlqSink_worksThrough hd events
  | false => exact (hd events).mono fun _ _ => trivial

theorem transformSink_worksThrough (hi : ∀ events, WorksThrough (inner.process events) events)
    (global : Option (Chain V)) (tables : List (String × Chain V)) (events : List (CDCEvent V)) :
    WorksThrough ((transformSink inner global tables).process events)
      (events.filterMap (kept (transformEvent global tables))) := by
  unfold transformSink
  split
  · next hnone =>
    simp only [Bool.and_eq_true, Option.isNone_iff_eq_none, List.isEmpty_iff] at hnone
    obtain ⟨rfl, rfl⟩ := hnone
    have himg : events.filterMap (kept (transformEvent none [])) = events := by
      simp [funext fun e => show kept (transformEvent none []) e = some e from rfl]
    rw [himg]
    exact hi events
  · dsimp only
    cases hb : transformBatch global tables events with
    | error err => exact worksThrough_some _ _
    | ok out =>
      obtain ⟨rfl, -⟩ := transformBatch_ok hb
      cases hout : events.filterMap (kept (transformEvent global tables)) with
      | nil => exact tries_nil
      | cons e out => exact hi (e :: out)

theorem filterMap_kept_withoutTable {spec : SinkSpec V} {schema table : String} (hx : spec.excluded = some (schema, table))
    (events : List (CDCEvent V)) :
    events.filterMap (kept spec.fate) =
      (withoutTable schema table events).filterMap (kept (transformEvent spec.global spec.tables)) := by
  rw [withoutTable_eq_filter, List.filterMap_filter]
  congr 1
  funext e
  simp only [kept, SinkSpec.fate, hx, Option.some.injEq, Prod.mk.injEq]
  cases hb : e.schema == schema && e.table == table with
  | true =>
    simp only [Bool.and_eq_true, beq_iff_eq] at hb
    rw [if_pos ⟨hb.1.symm, hb.2.symm⟩]
    rfl
  | false =>
    rw [if_neg]
    · rfl
    · rintro ⟨rfl, rfl⟩
      simp at hb

theorem build_worksThrough (hm : 0 ≤ cfg.maxRetries) (spec : SinkSpec V) (events : List (CDCEvent V)) :
    WorksThrough ((spec.build cfg).process events) (events.filterMap (kept spec.fate)) := by
  have ht := transformSink_worksThrough (wrapResilienceAndDLQ_worksThrough hm spec.name spec.maxBatchEvents)
    spec.global spec.tables
  unfold SinkSpec.build
  cases hx : spec.excluded with
  | none =>
    have hfate : spec.fate = transformEvent spec.global spec.tables := by
      funext e; simp [SinkSpec.fate, hx]
    rw [hfate]
    exact ht events
  | some outbox =>
    obtain ⟨schema, table⟩ := outbox
    rw [filterMap_kept_withoutTable hx]
    simp only [excludeTable]
    cases hk : withoutTable schema table events with
    | nil => exact tries_nil
    | cons e rest => exact ht (e :: rest)

theorem deliverSlices_worksThrough {fate : CDCEvent V → Except Err (Option (CDCEvent V))} {s : Sink V}
    (hs : ∀ events, WorksThrough (s.process events) (events.filterMap (kept fate))) {limit : ℕ} (hl : 0 < limit) :
    ∀ (fuel : ℕ) (events : List (CDCEvent V)), events.length ≤ fuel →
      WorksThrough (deliverSlices s limit fuel events) (events.filterMap (kept fate)) := by
  intro fuel
  induction fuel with
  | zero =>
    intro events hle
    obtain rfl := List.length_eq_zero_iff.mp (Nat.le_zero.mp hle)
    exact tries_nil
  | succ fuel ih =>
    intro events hle
    match events with
    | [] => exact tries_nil
    | a :: rest =>
      have := (hs ((a :: rest).take limit)).seq (ih ((a :: rest).drop limit) (by simp at hle ⊢; omega))
      rwa [← List.filterMap_append, List.take_append_drop] at this

theorem deliver_worksThrough (hm : 0 ≤ cfg.maxRetries) (spec : SinkSpec V) (events : List (CDCEvent V)) :
    WorksThrough (deliver (spec.build cfg) events) (events.filterMap (kept spec.fate)) := by
  unfold deliver
  dsimp only
  split
  · exact build_worksThrough hm spec events
  · next hl =>
    simp only [Bool.or_eq_true, decide_eq_true_eq, not_or, Int.not_le] at hl
    exact deliverSlices_worksThrough (build_worksThrough hm spec) (by omega) events.length events (Nat.le_refl _)

theorem filterMap_kept_admitEvents (svc : CDCServiceConfig) (spec : SinkSpec V) (events : List (CDCEvent V)) :
    (admitEvents svc events).filterMap (kept spec.fate) = events.filterMap (spec.image svc) := by
  rw [admitEvents_eq_filter, List.filterMap_filter]
  congr 1
  funext e
  unfold SinkSpec.image
  cases svc.isTableExcluded e.schema e.table <;> rfl

/-- One sink of a batch works through its images of the events, and through all
of them when the batch returns nil. -/
theorem handleBatch_takes (hm : 0 ≤ cfg.maxRetries) {svc : CDCServiceConfig}
    {specs : List (SinkSpec V)} {t : List (ℕ × (sinkSig V).Event)} {r : Option Err}
    (h : HandleBatch svc (specs.map (·.build cfg)) events t r) {i : ℕ} {spec : SinkSpec V} (hi : specs[i]? = some spec)
    (rest : List (CDCEvent V)) :
    ∃ left, Along Takes (events.filterMap (spec.image svc) ++ rest) (ofIndex i t) (left ++ rest) ∧ (r = none → left = []) := by
  rw [← filterMap_kept_admitEvents]
  cases h with
  | shutdown => exact ⟨_, .nil, fun hr => (by cases hr)⟩
  | nothing hnone => rw [hnone]; exact ⟨[], .nil, fun _ => rfl⟩
  | @processed t rs hne hp =>
    have hsink : (specs.map (·.build cfg))[i]? = some (spec.build cfg) := by simp [hi]
    have hlen : rs.length = (specs.map (·.build cfg)).length := by rw [hp.par.length, List.length_map]
    obtain ⟨r, hr, hx⟩ := hp.par.exec i (deliver (spec.build cfg) (admitEvents svc events)) (by rw [List.getElem?_map, hsink]; rfl)
    obtain ⟨left, hleft, hnone, -⟩ := deliver_worksThrough hm spec (admitEvents svc events) _ _ hx rest
    exact ⟨left, hleft, fun hnil => hnone (batchError_eq_none hlen hnil i r hr)⟩

/-! ## The life of a stream -/

/-- The calls of `handleBatch` over the events of a stream: each is for a piece
that starts at or before the first event that is not acknowledged. A call that
fails acknowledges nothing. -/
inductive StreamRun (svc : CDCServiceConfig) (sinks : List (Sink V)) (events : List (CDCEvent V)) :
    ℕ → List (ℕ × (sinkSig V).Event) → Prop
  | start : StreamRun svc sinks events 0 []
  | acknowledged {pos a t piece t'} : StreamRun svc sinks events pos t → a ≤ pos → piece <+: events.drop a →
      HandleBatch svc sinks piece t' none → StreamRun svc sinks events (a + piece.length) (t ++ t')
  | failed {pos a t piece t' err} : StreamRun svc sinks events pos t → a ≤ pos → piece <+: events.drop a →
      HandleBatch svc sinks piece t' (some err) → StreamRun svc sinks events a (t ++ t')

/-- What a destination carries out for an operation: the batch when it answers
nil, and what `part` allows of it when it answers an error. -/
inductive CarriesOut (part : List (CDCEvent V) → List (CDCEvent V) → Prop) : (sinkSig V).Event → List (CDCEvent V) → Prop
  | accepted {name batch} : CarriesOut part ⟨.process name batch, none⟩ batch
  | failed {name batch err done} : part done batch → CarriesOut part ⟨.process name batch, some err⟩ done
  | other {x} : (∀ name batch r, x ≠ ⟨.process name batch, r⟩) → CarriesOut part x []

/-- What it has carried out so far, along its operations. -/
abbrev Log (part : List (CDCEvent V) → List (CDCEvent V) → Prop) : List (CDCEvent V) → Trace V → List (CDCEvent V) → Prop :=
  Along fun log x log' => ∃ done, CarriesOut part x done ∧ log' = log ++ done

variable {part : List (CDCEvent V) → List (CDCEvent V) → Prop}

theorem redelivery_of_takes {xs : List (CDCEvent V)} {t : Trace V} :
    ∀ {pos : ℕ} {log log' rest : List (CDCEvent V)}, Redelivery part xs pos log → Along Takes (xs.drop pos) t rest →
      Log part log t log' → (∀ entry, ⟨.park entry, none⟩ ∉ t) →
      ∃ pos', pos ≤ pos' ∧ xs.drop pos' = rest ∧ Redelivery part xs pos' log' := by
  induction t with
  | nil =>
    intro pos log log' rest hred htakes hlog _
    obtain rfl := along_nil.mp htakes
    obtain rfl := along_nil.mp hlog
    exact ⟨pos, Nat.le_refl _, rfl, hred⟩
  | cons x t ih =>
    intro pos log log' rest hred htakes hlog hpark
    obtain ⟨mid, htake, hrest⟩ := along_cons.mp htakes
    obtain ⟨_, ⟨done, hdone, rfl⟩, hlog'⟩ := along_cons.mp hlog
    have hpark' : ∀ entry, ⟨.park entry, none⟩ ∉ t := fun entry hmem => hpark entry (List.mem_cons_of_mem _ hmem)
    generalize hpending : xs.drop pos = pending at htake
    cases htake with
    | @accepted name batch =>
      have hdrop : xs.drop (pos + batch.length) = mid := by
        rw [← List.drop_drop, hpending, List.drop_left]
      cases hdone with
      | accepted =>
        obtain ⟨pos', hle, h⟩ := ih (hred.accepted ⟨mid, hpending.symm⟩) (hdrop ▸ hrest) hlog' hpark'
        exact ⟨pos', by omega, h⟩
      | other hno => exact absurd rfl (hno _ _ _)
    | failed =>
      cases hdone with
      | failed hpart => exact ih (hred.failed ⟨_, hpending.symm⟩ hpart) (hpending ▸ hrest) hlog' hpark'
      | other hno => exact absurd rfl (hno _ _ _)
    | parked => exact absurd (List.mem_cons_self ..) (hpark _)
    | other hprocess _ =>
      cases hdone with
      | accepted => exact absurd rfl (hprocess _ _ _)
      | failed => exact absurd rfl (hprocess _ _ _)
      | other =>
        rw [List.append_nil] at hlog'
        exact ih hred (hpending ▸ hrest) hlog' hpark'

theorem mem_ofIndex {i : ℕ} {x : (sinkSig V).Event} {t : List (ℕ × (sinkSig V).Event)} : x ∈ ofIndex i t ↔ (i, x) ∈ t := by
  simp [ofIndex, List.mem_filterMap]

section Calls

variable {cfg : SinksConfig V} {svc : CDCServiceConfig} {specs : List (SinkSpec V)} {events : List (CDCEvent V)} {i : ℕ}
  {spec : SinkSpec V}

/-- How many images come before a position of the stream. -/
def SinkSpec.imagesBefore (spec : SinkSpec V) (svc : CDCServiceConfig) (events : List (CDCEvent V)) (pos : ℕ) : ℕ :=
  ((events.take pos).filterMap (spec.image svc)).length

variable {t : List (ℕ × (sinkSig V).Event)} {log : List (CDCEvent V)}

/-- One call goes on with the redelivery. -/
theorem redelivery_of_handleBatch (hm : 0 ≤ cfg.maxRetries) (hi : specs[i]? = some spec) {pos a : ℕ}
    {piece log' : List (CDCEvent V)} {r : Option Err}
    (hred : Redelivery part (events.filterMap (spec.image svc)) (spec.imagesBefore svc events pos) log) (hle : a ≤ pos)
    (hpiece : piece <+: events.drop a) (hbatch : HandleBatch svc (specs.map (·.build cfg)) piece t r)
    (hpark : ∀ entry, (i, ⟨.park entry, none⟩) ∉ t) (hlog : Log part log (ofIndex i t) log') :
    ∃ pos', spec.imagesBefore svc events a ≤ pos' ∧ Redelivery part (events.filterMap (spec.image svc)) pos' log' ∧
      (r = none → pos' = spec.imagesBefore svc events (a + piece.length)) := by
  obtain ⟨rest, hrest⟩ := hpiece
  obtain ⟨left, hleft, hnil⟩ := handleBatch_takes hm hbatch hi (rest.filterMap (spec.image svc))
  rw [← List.filterMap_append, hrest, ← drop_filterMap] at hleft
  obtain ⟨pos', hpos', hdrop, hred'⟩ := redelivery_of_takes
    (hred.back (filterMap_take_le (spec.image svc) events hle)) hleft hlog fun entry hmem => hpark entry (mem_ofIndex.mp hmem)
  refine ⟨pos', hpos', hred', fun hr => ?_⟩
  have hend : events.drop (a + piece.length) = rest := by
    rw [← List.drop_drop, ← hrest, List.drop_left]
  rw [hnil hr, List.nil_append, ← hend, ← drop_filterMap] at hdrop
  have hlen := congrArg List.length hdrop
  rw [List.length_drop, List.length_drop] at hlen
  have hle₁ := hred'.le_length
  have hle₂ := ((List.take_sublist (a + piece.length) events).filterMap (spec.image svc)).length_le
  unfold SinkSpec.imagesBefore
  omega

theorem subset_of_takes {t : Trace V} : ∀ {pending rest : List (CDCEvent V)}, Along Takes pending t rest →
    rest ⊆ pending ∧ ∀ name batch r, ⟨.process name batch, r⟩ ∈ t → batch ⊆ pending := by
  induction t with
  | nil =>
    intro pending rest h
    obtain rfl := along_nil.mp h
    exact ⟨List.Subset.refl _, by simp⟩
  | cons x t ih =>
    intro pending rest h
    obtain ⟨mid, hx, h⟩ := along_cons.mp h
    obtain ⟨hrest, hbatches⟩ := ih h
    have hmid : mid ⊆ pending := by
      cases hx with
      | accepted => exact List.subset_append_right _ _
      | failed => exact List.Subset.refl _
      | parked => exact List.subset_cons_self _ _
      | other => exact List.Subset.refl _
    refine ⟨List.Subset.trans hrest hmid, fun name batch r hmem => ?_⟩
    rcases List.mem_cons.mp hmem with rfl | hmem
    · cases hx with
      | accepted => exact List.subset_append_left _ _
      | failed => exact List.subset_append_left _ _
      | other hno => exact absurd rfl (hno _ _ _)
    · exact List.Subset.trans (hbatches name batch r hmem) hmid

/-- A destination is only ever sent images of events of the stream. -/
theorem StreamRun.batch_subset (hm : 0 ≤ cfg.maxRetries) (hi : specs[i]? = some spec) {pos : ℕ}
    (hrun : StreamRun svc (specs.map (·.build cfg)) events pos t) :
    ∀ name batch r, (i, ⟨.process name batch, r⟩) ∈ t → batch ⊆ events.filterMap (spec.image svc) := by
  have hcall {a : ℕ} {piece : List (CDCEvent V)} {t' : List (ℕ × (sinkSig V).Event)} {r : Option Err}
      (hpiece : piece <+: events.drop a) (hbatch : HandleBatch svc (specs.map (·.build cfg)) piece t' r) :
      ∀ name batch r, (i, ⟨.process name batch, r⟩) ∈ t' → batch ⊆ events.filterMap (spec.image svc) := by
    intro name batch r hmem
    obtain ⟨left, hleft, -⟩ := handleBatch_takes hm hbatch hi []
    have hsub := (subset_of_takes hleft).2 name batch r (mem_ofIndex.mpr hmem)
    rw [List.append_nil] at hsub
    exact List.Subset.trans hsub ((hpiece.sublist.trans (List.drop_sublist a events)).filterMap _).subset
  induction hrun with
  | start => simp
  | acknowledged _ _ hpiece hbatch ih =>
    intro name batch r hmem
    exact (List.mem_append.mp hmem).elim (ih name batch r) (hcall hpiece hbatch name batch r)
  | failed _ _ hpiece hbatch ih =>
    intro name batch r hmem
    exact (List.mem_append.mp hmem).elim (ih name batch r) (hcall hpiece hbatch name batch r)

/-- The image of an event that is acknowledged was accepted by the destination
or parked. -/
theorem StreamRun.settled (hm : 0 ≤ cfg.maxRetries) (hi : specs[i]? = some spec) {pos : ℕ}
    (hrun : StreamRun svc (specs.map (·.build cfg)) events pos t) :
    ∀ e ∈ (events.take pos).filterMap (spec.image svc), e ∈ settledEvents (ofIndex i t) := by
  induction hrun with
  | start => simp
  | @acknowledged pos a t piece t' _ hle hpiece hbatch ih =>
    intro e he
    rw [ofIndex_append, settledEvents_append, List.mem_append]
    rw [List.take_add, ← List.prefix_iff_eq_take.mp hpiece, List.filterMap_append, List.mem_append] at he
    rcases he with he | he
    · exact .inl (ih e (((List.take_sublist_take_left hle).filterMap _).subset he))
    · rw [(handleBatch_sink hm hbatch hi).1, filterMap_kept_admitEvents]
      exact .inr he
  | failed _ hle _ _ ih =>
    intro e he
    rw [ofIndex_append, settledEvents_append, List.mem_append]
    exact .inl (ih e (((List.take_sublist_take_left hle).filterMap _).subset he))

/-- **All that one destination carries out over the life of the stream is a
redelivery of its images of the events**, if nothing is parked. -/
theorem StreamRun.redelivery (hm : 0 ≤ cfg.maxRetries) (hi : specs[i]? = some spec) {pos : ℕ}
    (hrun : StreamRun svc (specs.map (·.build cfg)) events pos t)
    (hpark : ∀ entry, (i, ⟨.park entry, none⟩) ∉ t) (hlog : Log part [] (ofIndex i t) log) :
    Redelivery part (events.filterMap (spec.image svc)) (spec.imagesBefore svc events pos) log := by
  induction hrun generalizing log with
  | start =>
    obtain rfl := along_nil.mp hlog
    exact .start
  | acknowledged _ hle hpiece hbatch ih =>
    rw [ofIndex_append] at hlog
    obtain ⟨mid, hmid, hlog⟩ := along_append.mp hlog
    obtain ⟨pos', -, hred, hpos'⟩ := redelivery_of_handleBatch hm hi
      (ih (fun entry hmem => hpark entry (List.mem_append_left _ hmem)) hmid) hle hpiece hbatch
      (fun entry hmem => hpark entry (List.mem_append_right _ hmem)) hlog
    rw [← hpos' rfl]
    exact hred
  | failed _ hle hpiece hbatch ih =>
    rw [ofIndex_append] at hlog
    obtain ⟨mid, hmid, hlog⟩ := along_append.mp hlog
    obtain ⟨pos', hle', hred, -⟩ := redelivery_of_handleBatch hm hi
      (ih (fun entry hmem => hpark entry (List.mem_append_left _ hmem)) hmid) hle hpiece hbatch
      (fun entry hmem => hpark entry (List.mem_append_right _ hmem)) hlog
    exact hred.back hle'

/-- The same where every event is acknowledged. -/
theorem StreamRun.redelivery_all (hm : 0 ≤ cfg.maxRetries) (hi : specs[i]? = some spec)
    (hrun : StreamRun svc (specs.map (·.build cfg)) events events.length t)
    (hpark : ∀ entry, (i, ⟨.park entry, none⟩) ∉ t) (hlog : Log part [] (ofIndex i t) log) :
    Redelivery part (events.filterMap (spec.image svc)) (events.filterMap (spec.image svc)).length log := by
  have := hrun.redelivery hm hi hpark hlog
  rwa [SinkSpec.imagesBefore, List.take_length] at this

end Calls

/-! ## Pipelines -/

section Pipelines

variable {C : Type} {command : CDCEvent V → Except Err (Option C)}

/-- The commands of a batch, at most one for each event, or the first error. -/
def pipelined (command : CDCEvent V → Except Err (Option C)) : List (CDCEvent V) → Except Err (List C)
  | [] => .ok []
  | event :: events =>
    match command event with
    | .error err => .error err
    | .ok c => (pipelined command events).map (c.toList ++ ·)

theorem pipelined_eq_ok {events : List (CDCEvent V)} {commands : List C} :
    pipelined command events = .ok commands ↔ (∀ event ∈ events, ∃ c, command event = .ok c) ∧
      commands = events.filterMap fun event => (command event).toOption.join := by
  induction events generalizing commands with
  | nil => simp [pipelined, eq_comm]
  | cons event events ih =>
    simp only [pipelined]
    cases hcommand : command event with
    | error err => simp [hcommand]
    | ok c =>
      simp only [map_eq_ok, ih, List.forall_mem_cons, hcommand, Except.ok.injEq, exists_eq', true_and]
      have hcons : (event :: events).filterMap (fun event => (command event).toOption.join) =
          c.toList ++ events.filterMap fun event => (command event).toOption.join := by
        cases c <;> simp [hcommand, Except.toOption]
      rw [hcons]
      constructor
      · rintro ⟨rest, ⟨hall, rfl⟩, rfl⟩
        exact ⟨hall, rfl⟩
      · rintro ⟨hall, rfl⟩
        exact ⟨_, ⟨hall, rfl⟩, rfl⟩

/-- What the server executes for an operation: the pipeline of a `Process` that
returns nil, and any part of a pipeline that fails. -/
inductive Executes (command : CDCEvent V → Except Err (Option C)) : (sinkSig V).Event → List C → Prop
  | executed {name batch commands} : pipelined command batch = .ok commands →
      Executes command ⟨.process name batch, none⟩ commands
  | failed {name batch err commands} {done : List C} : pipelined command batch = .ok commands → done.Sublist commands →
      Executes command ⟨.process name batch, some err⟩ done
  | refused {name batch err} : pipelined command batch = .error err → Executes command ⟨.process name batch, some err⟩ []
  | other {x} : (∀ name batch r, x ≠ ⟨.process name batch, r⟩) → Executes command x []

/-- What it has executed so far. -/
abbrev Executed (command : CDCEvent V → Except Err (Option C)) : List C → Trace V → List C → Prop :=
  Along fun done x done' => ∃ commands, Executes command x commands ∧ done' = done ++ commands

/-- The events behind what was executed. -/
theorem Executes.carriesOut {x : (sinkSig V).Event} {commands : List C} (h : Executes command x commands) :
    ∃ log, CarriesOut List.Sublist x log ∧ commands = log.filterMap (fun event => (command event).toOption.join) ∧
      ∀ event ∈ log, ∃ c, command event = .ok c := by
  cases h with
  | @executed name batch _ hcommands =>
    obtain ⟨hall, rfl⟩ := pipelined_eq_ok.mp hcommands
    exact ⟨batch, .accepted, rfl, hall⟩
  | failed hcommands hdone =>
    obtain ⟨hall, rfl⟩ := pipelined_eq_ok.mp hcommands
    obtain ⟨log, hlog, rfl⟩ := List.sublist_filterMap_iff.mp hdone
    exact ⟨log, .failed hlog, rfl, fun event he => hall event (hlog.subset he)⟩
  | refused => exact ⟨[], .failed (List.nil_sublist _), rfl, by simp⟩
  | other hno => exact ⟨[], .other hno, rfl, by simp⟩

theorem Executed.log {t : Trace V} : ∀ {log : List (CDCEvent V)} {done done' : List C}, Executed command done t done' →
    done = log.filterMap (fun event => (command event).toOption.join) → (∀ event ∈ log, ∃ c, command event = .ok c) →
    ∃ log', Log List.Sublist log t log' ∧ done' = log'.filterMap (fun event => (command event).toOption.join) ∧
      ∀ event ∈ log', ∃ c, command event = .ok c := by
  induction t with
  | nil =>
    intro log done done' h hdone hall
    obtain rfl := along_nil.mp h
    exact ⟨log, .nil, hdone, hall⟩
  | cons x t ih =>
    intro log done done' h hdone hall
    obtain ⟨_, ⟨commands, hx, rfl⟩, h⟩ := along_cons.mp h
    obtain ⟨events, hevents, rfl, hok⟩ := hx.carriesOut
    obtain ⟨log', hlog', hrest⟩ := ih h (by rw [hdone, List.filterMap_append])
      fun event he => (List.mem_append.mp he).elim (hall event) (hok event)
    exact ⟨log', .cons ⟨events, hevents, rfl⟩ hlog', hrest⟩

variable {cfg : SinksConfig V} {svc : CDCServiceConfig} {specs : List (SinkSpec V)} {events : List (CDCEvent V)} {i : ℕ}
  {spec : SinkSpec V}

/-- **Commands that are absorbed leave what a single pipeline of the whole
stream leaves.** -/
theorem StreamRun.foldl_executed (hm : 0 ≤ cfg.maxRetries) (hi : specs[i]? = some spec)
    {t : List (ℕ × (sinkSig V).Event)} (hrun : StreamRun svc (specs.map (·.build cfg)) events events.length t)
    (hpark : ∀ entry, (i, ⟨.park entry, none⟩) ∉ t) {done : List C} (hdone : Executed command [] (ofIndex i t) done)
    {σ : Type} {act : σ → C → σ} (habs : Absorbing act) :
    ∃ commands, pipelined command (events.filterMap (spec.image svc)) = .ok commands ∧
      ∀ s, done.foldl act s = commands.foldl act s := by
  obtain ⟨log, hlog, rfl, hok⟩ := @Executed.log _ _ _ _ [] _ _ hdone rfl (by simp)
  have hred := hrun.redelivery_all hm hi hpark hlog
  have hall : ∀ event ∈ events.filterMap (spec.image svc), ∃ c, command event = .ok c := fun event he =>
    hok event (hred.mem_log event (by rwa [List.take_length]))
  exact ⟨_, pipelined_eq_ok.mpr ⟨hall, rfl⟩, fun s => hred.foldl_filterMap_eq habs (fun _ _ h => h.subset) _ s⟩

end Pipelines

/-! ## A stream that is delivered again -/

section Again

variable (name : String)

/-- One sink, without a DLQ, retries and transforms. -/
def plainSinks : SinksConfig V :=
  { maxRetries := 0, dlq := false, outbox := none, sinks := [(name, 0, none, [])], outboxName := "outbox" }

def plainSpec : SinkSpec V := ⟨name, 0, none, [], none⟩

/-- Its destination fails, and what became of the batch is not known. -/
def failedCall (batch : List (CDCEvent V)) (err : Err) : List (ℕ × (sinkSig V).Event) :=
  [(0, ⟨.beforeRequest name, .ok 0⟩), (0, ⟨.process name batch, some err⟩), (0, ⟨.ctxErr, false⟩),
    (0, ⟨.afterRequest name 0 false, ()⟩)]

def acceptedCall (batch : List (CDCEvent V)) : List (ℕ × (sinkSig V).Event) :=
  [(0, ⟨.beforeRequest name, .ok 0⟩), (0, ⟨.process name batch, none⟩), (0, ⟨.afterRequest name 0 true, ()⟩)]

theorem admitEvents_none (parallel : Bool) (events : List (CDCEvent V)) : admitEvents ⟨parallel, []⟩ events = events := by
  simp [admitEvents_eq_filter, CDCServiceConfig.isTableExcluded]

theorem handleBatch_acceptedCall (a b : CDCEvent V) :
    HandleBatch ⟨true, []⟩ ([plainSpec name].map (·.build (plainSinks name))) [a, b] (acceptedCall name [a, b]) none := by
  have hx : Exec (deliver ((plainSpec name).build (plainSinks name)) [a, b]) ((acceptedCall name [a, b]).map (·.2)) none :=
    .ask (.ask (.ask .ret))
  have hb : HandleBatch ⟨true, []⟩ ([plainSpec name].map (·.build (plainSinks name))) [a, b] (acceptedCall name [a, b])
      (batchError ([plainSpec name].map (·.build (plainSinks name))) [none]) :=
    .processed (by simp [admitEvents_none]) (.sequential (by simp) (admitEvents_none true [a, b] ▸ .cons hx .nil))
  exact hb

/-- The first two events fail and are delivered again; then the session is lost
before the second one is confirmed. -/
def deliveredAgain (err : Err) (a b c : CDCEvent V) : List (ℕ × (sinkSig V).Event) :=
  failedCall name [a, b] err ++ acceptedCall name [a, b] ++ acceptedCall name [b, c]

theorem streamRun_deliveredAgain (err : Err) {a b c : CDCEvent V}
    (hx : Exec (deliver ((plainSpec name).build (plainSinks name)) [a, b]) ((failedCall name [a, b] err).map (·.2)) (some err)) :
    StreamRun ⟨true, []⟩ ([plainSpec name].map (·.build (plainSinks name))) [a, b, c] 3 (deliveredAgain name err a b c) := by
  have hfailed : HandleBatch ⟨true, []⟩ ([plainSpec name].map (·.build (plainSinks name))) [a, b] (failedCall name [a, b] err)
      (batchError ([plainSpec name].map (·.build (plainSinks name))) [some err]) :=
    .processed (by simp [admitEvents_none]) (.sequential (by simp) (admitEvents_none true [a, b] ▸ .cons hx .nil))
  have hagain : StreamRun ⟨true, []⟩ ([plainSpec name].map (·.build (plainSinks name))) [a, b, c] 2
      (failedCall name [a, b] err ++ acceptedCall name [a, b]) :=
    .acknowledged (.failed .start (Nat.le_refl 0) ⟨[c], rfl⟩ hfailed) (Nat.le_refl 0) ⟨[c], rfl⟩
      (handleBatch_acceptedCall name a b)
  exact .acknowledged hagain (a := 1) (by decide) (List.prefix_refl _) (handleBatch_acceptedCall name b c)

theorem deliveredAgain_not_parked (err : Err) (a b c : CDCEvent V) (entry : DeadLetterEntry V) :
    (0, ⟨.park entry, none⟩) ∉ deliveredAgain name err a b c := by
  simp [deliveredAgain, failedCall, acceptedCall]

theorem image_plainSpec (events : List (CDCEvent V)) : events.filterMap ((plainSpec name).image ⟨true, []⟩) = events :=
  List.filterMap_some

end Again

end Gtc
