/-
Routing: `domain.Wants` through the layers of a sink stack, against what
`Process` gives to the destination.

`Wants` is a second, static path through the same decorators. Every batch that
reaches the destination consists of images of events (`build_reaches`); a
chain that rejects a table and operation statically makes no image of their
events (`chain_rejects`), and each concrete sink passes over the tables it does
not want (`Destination.produce_without`).
-/
import Gtc.Sink.Meilisearch
import Gtc.Sink.Nats
import Gtc.Sink.NoLoss
import Gtc.Sink.Outbox
import Gtc.Sink.Redis
import Gtc.Sink.Webhook

namespace Gtc

open Lib

variable {V : Type}

/-! ## Concrete sinks -/

/-- The sinks `newSinks` can build. -/
inductive Destination (V : Type) where
  | redisStream (s : StreamSink V)
  | redisJSON (s : JSONSink V)
  | webhook (s : WebhookSink V)
  | nats (s : NatsSink V)
  | meilisearch (s : MeiliSink V)
  | outbox (s : OutboxSink V)

/-- What a concrete sink makes of a batch: stream entries, document commands,
requests (whatever the receiver answers), messages, tasks, outbox messages; or
the error it returns instead. -/
inductive Produced (V : Type) where
  | entries (result : Except Err (List (XAdd V)))
  | commands (result : Except Err (List (JSONCommand V)))
  | requests (result : (ℕ → WebhookFate) → Option Err × List (WebhookRequest V))
  | messages (result : Except Err (List (NatsMsg V)))
  | tasks (result : Except Err (BatchPlan V))
  | outbox (result : Except Err (List OutboxMessage))

def Destination.produce (events : List (CDCEvent V)) : Destination V → Produced V
  | redisStream s => .entries (s.commands events)
  | redisJSON s => .commands (s.commands events)
  | webhook s => .requests fun fates => s.process fates 0 events
  | nats s => .messages (s.messages events)
  | meilisearch s => .tasks (s.plan events)
  | outbox s => .outbox (s.messages events)

/-- `Router.Wants`. -/
abbrev Wants := String → String → Operation → Bool

def Destination.wants : Destination V → Wants
  | redisStream s => fun schema table _ => s.resolver.shouldProcess schema table
  | redisJSON s => fun schema table _ => s.resolver.shouldProcess schema table
  | webhook s => fun schema table _ => s.shouldProcess schema table
  | nats s => fun schema table _ =>
    match s.resolver with
    | none => true
    | some resolver => resolver.shouldProcess schema table
  | meilisearch s => fun schema table _ => (s.config.getIndex schema table).isSome
  | outbox s => fun schema table op => schema = s.schema && table = s.table && op = .insert

/-! ## Chains -/

/-- Evaluation with the row unknown: `cel.PartialVars`, and a filter's partial
program at `op`, `schema` and `table`, whose value may be no boolean. -/
structure PartialCel (V : Type) where
  partialVars : String → String → String → Option Err
  eval : CelProgram V → String → String → String → Except Err (Option Bool)

/-- When partial evaluation yields false, full evaluation does for every row. -/
def PartialCel.Sound (cel : PartialCel V) : Prop :=
  ∀ prg op schema table, cel.eval prg op schema table = .ok (some false) →
    ∀ new old, prg op schema table new old = .ok (.inl false)

section Wants

variable (cel : PartialCel V)

/-- The loop of `RejectsAll`. -/
def rejectsSteps (schema table : String) (op : Operation) : List (CompiledSpec V) → Bool
  | [] => false
  | step :: steps =>
    match step.filter with
    | none => rejectsSteps schema table op steps
    | some prg =>
      match cel.partialVars op.string schema table with
      | some _ => false
      | none =>
        match cel.eval prg op.string schema table with
        | .error _ => rejectsSteps schema table op steps
        | .ok (some false) => true
        | .ok _ => rejectsSteps schema table op steps

/-- `Chain.RejectsAll`. -/
def Chain.rejectsAll (chain : Option (Chain V)) (schema table : String) (op : Operation) : Bool :=
  match chain with
  | none => false
  | some chain => rejectsSteps cel schema table op chain.steps

/-- `domain.CDCEvent{Schema: schema, Table: table}`. -/
def probe (schema table : String) : CDCEvent V :=
  { bareEvent "" with schema, table, newData := none }

/-- `transform.Sink.Wants`; without chains the inner sink is not wrapped. -/
def transformWants (inner : Wants) (global : Option (Chain V)) (tables : List (String × Chain V)) : Wants :=
  if global.isNone && tables.isEmpty then inner
  else fun schema table op =>
    if Chain.rejectsAll cel global schema table op then false
    else if Chain.rejectsAll cel (tableChain tables (probe schema table)) schema table op then false
    else inner schema table op

/-- `excludingSink.Wants`. -/
def excludeWants (inner : Wants) (schema' table' : String) : Wants := fun schema table op =>
  if schema = schema' ∧ table = table' then false else inner schema table op

/-- `domain.Wants` of the stack; the resilience and DLQ layers ask the sink they
wrap. -/
def SinkSpec.wants (spec : SinkSpec V) (dest : Destination V) : Wants :=
  let wrapped := transformWants cel dest.wants spec.global spec.tables
  match spec.excluded with
  | none => wrapped
  | some (schema, table) => excludeWants wrapped schema table

end Wants

/-- The `Wanted` of `newBackfillCoordinator`: some sink might take READ rows. -/
def coordinatorWanted (cel : PartialCel V) (sinks : List (SinkSpec V × Destination V)) (schema table : String) : Bool :=
  sinks.any fun (spec, dest) => spec.wants cel dest schema table .read

/-! ## Events of one table and operation -/

def IsOf (schema table : String) (op : Operation) (event : CDCEvent V) : Prop :=
  event.schema = schema ∧ event.table = table ∧ event.operation = op

instance (schema table : String) (op : Operation) : DecidablePred (IsOf (V := V) schema table op) :=
  fun _ => inferInstanceAs (Decidable (_ ∧ _ ∧ _))

/-- The batch without these events. -/
def without (schema table : String) (op : Operation) (events : List (CDCEvent V)) : List (CDCEvent V) :=
  events.filter fun event => ¬ IsOf schema table op event

section Without

variable {schema table : String} {op : Operation}

theorem without_cons_of_isOf {event : CDCEvent V} (h : IsOf schema table op event) (events : List (CDCEvent V)) :
    without schema table op (event :: events) = without schema table op events := by
  simp [without, h]

theorem without_cons_of_not {event : CDCEvent V} (h : ¬ IsOf schema table op event) (events : List (CDCEvent V)) :
    without schema table op (event :: events) = event :: without schema table op events := by
  simp [without, h]

theorem without_eq_self {events : List (CDCEvent V)} (h : ∀ e ∈ events, ¬ IsOf schema table op e) :
    without schema table op events = events :=
  List.filter_eq_self.mpr fun e he => by simpa using h e he

/-- A loop that does nothing for an event leaves it out. -/
theorem loop_without {A : Type} {loop : List (CDCEvent V) → A}
    (hrest : ∀ event events events', loop events = loop events' → loop (event :: events) = loop (event :: events'))
    (hskip : ∀ event events, IsOf schema table op event → loop (event :: events) = loop events)
    (events : List (CDCEvent V)) : loop events = loop (without schema table op events) := by
  induction events with
  | nil => rfl
  | cons event events ih =>
    by_cases h : IsOf schema table op event
    · rw [without_cons_of_isOf h, hskip event events h, ih]
    · rw [without_cons_of_not h]
      exact hrest event _ _ ih

/-- A fold that does nothing for an event leaves it out. -/
theorem foldlM_without {A : Type} {step : A → CDCEvent V → Except Err A}
    (hskip : ∀ a event, IsOf schema table op event → step a event = .ok a) (a : A) (events : List (CDCEvent V)) :
    events.foldlM step a = (without schema table op events).foldlM step a := by
  induction events generalizing a with
  | nil => rfl
  | cons event events ih =>
    by_cases h : IsOf schema table op event
    · rw [without_cons_of_isOf h, List.foldlM_cons, hskip a event h, ← ih]
      rfl
    · rw [without_cons_of_not h, List.foldlM_cons, List.foldlM_cons]
      exact congrArg _ (funext fun a' => ih a')

theorem webhook_process_without {s : WebhookSink V} (h : s.shouldProcess schema table = false)
    (fates : ℕ → WebhookFate) (i : ℕ) (events : List (CDCEvent V)) :
    s.process fates i events = s.process fates i (without schema table op events) := by
  induction events generalizing i with
  | nil => rfl
  | cons event events ih =>
    by_cases hof : IsOf schema table op event
    · obtain ⟨rfl, rfl, -⟩ := id hof
      rw [without_cons_of_isOf hof, ← ih]
      simp [WebhookSink.process, h]
    · rw [without_cons_of_not hof]
      simp only [WebhookSink.process, ih]

/-- **A concrete sink produces nothing for what it does not want.** -/
theorem Destination.produce_without {dest : Destination V} (h : dest.wants schema table op = false)
    (events : List (CDCEvent V)) : dest.produce events = dest.produce (without schema table op events) := by
  cases dest with
  | redisStream s =>
    refine congrArg Produced.entries (loop_without (fun _ _ _ hrest => by simp only [StreamSink.commands, hrest]) ?_ events)
    rintro event events ⟨rfl, rfl, -⟩
    have hskip : s.shouldProcess event = false := h
    simp [StreamSink.commands, hskip]
  | redisJSON s =>
    refine congrArg Produced.commands (loop_without (fun _ _ _ hrest => by simp only [JSONSink.commands, hrest]) ?_ events)
    rintro event events ⟨rfl, rfl, -⟩
    have hskip : s.shouldProcess event = false := h
    cases hrest : s.commands events <;> simp [JSONSink.commands, JSONSink.command, hskip, hrest, Except.map]
  | webhook s => exact congrArg Produced.requests (funext fun fates => webhook_process_without h fates 0 events)
  | nats s =>
    refine congrArg Produced.messages (loop_without (fun _ _ _ hrest => by simp only [NatsSink.messages, hrest]) ?_ events)
    rintro event events ⟨rfl, rfl, -⟩
    have hskip : s.shouldProcess event = false := h
    simp [NatsSink.messages, hskip]
  | meilisearch s =>
    refine congrArg Produced.tasks ?_
    unfold MeiliSink.plan
    refine foldlM_without ?_ ({} : BatchPlan V) events
    rintro p event ⟨rfl, rfl, -⟩
    have hnone : s.config.getIndex event.schema event.table = none := by simpa [wants] using h
    simp [MeiliSink.planEvent, hnone]
  | outbox s =>
    refine congrArg Produced.outbox (loop_without (fun _ _ _ hrest => by simp only [OutboxSink.messages, hrest]) ?_ events)
    rintro event events ⟨rfl, rfl, rfl⟩
    have hskip : s.isMessage event = false := h
    simp [OutboxSink.messages, hskip]

end Without

/-! ## Images -/

variable {steps : List (CompiledSpec V)} {event out : CDCEvent V} {schema table : String} {op : Operation}
  {cel : PartialCel V}

/-- An event that gets through a step passes its filter, and goes on with other
rows at most. -/
theorem applySteps_cons_some {step : CompiledSpec V} (h : applySteps (step :: steps) event = .ok (some out)) :
    (∀ prg ∈ step.filter, evalFilter prg event = .ok true) ∧
      ∃ newData oldData, applySteps steps { event with newData, oldData } = .ok (some out) := by
  have hrest (h : (if step.drop.isEmpty && step.mask.isEmpty then applySteps steps event
      else applySteps steps { event with
        newData := event.newData.map step.rewrite, oldData := event.oldData.map step.rewrite }) = .ok (some out)) :
      ∃ newData oldData, applySteps steps { event with newData, oldData } = .ok (some out) := by
    split at h
    · exact ⟨event.newData, event.oldData, h⟩
    · exact ⟨_, _, h⟩
  cases hfilter : step.filter with
  | none =>
    simp only [applySteps, hfilter] at h
    exact ⟨by simp, hrest h⟩
  | some prg =>
    simp only [applySteps, hfilter, bind_eq_ok] at h
    obtain ⟨keep, hkeep, h⟩ := h
    cases keep with
    | false => cases h
    | true => exact ⟨by simpa using hkeep, hrest h⟩

theorem applySteps_isOf
    (h : applySteps steps event = .ok (some out)) : IsOf schema table op out ↔ IsOf schema table op event := by
  induction steps generalizing event with
  | nil =>
    cases h
    rfl
  | cons step steps ih =>
    obtain ⟨-, newData, oldData, h⟩ := applySteps_cons_some h
    exact (ih h).trans Iff.rfl

theorem chain_apply_isOf {chain : Option (Chain V)}
    (h : Chain.apply chain event = .ok (some out)) : IsOf schema table op out ↔ IsOf schema table op event := by
  cases chain with
  | none =>
    cases h
    rfl
  | some chain => exact applySteps_isOf h

/-- A filter that is false with the row unknown lets no row through. -/
theorem steps_reject (hsound : cel.Sound) (hrejects : rejectsSteps cel schema table op steps = true)
    (hof : IsOf schema table op event) : applySteps steps event ≠ .ok (some out) := by
  induction steps generalizing event with
  | nil => cases hrejects
  | cons step steps ih =>
    intro h
    obtain ⟨hkeep, newData, oldData, hrest⟩ := applySteps_cons_some h
    have hofRest : IsOf schema table op { event with newData, oldData } := hof
    have hlater (hrejects : rejectsSteps cel schema table op steps = true) : False := ih hrejects hofRest hrest
    unfold rejectsSteps at hrejects
    cases hfilter : step.filter with
    | none =>
      simp only [hfilter] at hrejects
      exact hlater hrejects
    | some prg =>
      simp only [hfilter] at hrejects
      cases hvars : cel.partialVars op.string schema table with
      | some err => simp [hvars] at hrejects
      | none =>
        simp only [hvars] at hrejects
        split at hrejects
        · exact hlater hrejects
        · rename_i hfalse
          obtain ⟨rfl, rfl, rfl⟩ := hof
          have hfull := hsound prg _ _ _ hfalse (event.newData.getD []) (event.oldData.getD [])
          have hkept := hkeep prg hfilter
          simp [evalFilter, hfull] at hkept
        · exact hlater hrejects

theorem chain_rejects (hsound : cel.Sound)
    {chain : Option (Chain V)} (hrejects : Chain.rejectsAll cel chain schema table op = true)
    (hof : IsOf schema table op event) : Chain.apply chain event ≠ .ok (some out) := by
  cases chain with
  | none => cases hrejects
  | some chain => exact steps_reject hsound hrejects hof

theorem transformEvent_some {global : Option (Chain V)} {tables : List (String × Chain V)}
    (h : transformEvent global tables event = .ok (some out)) : ∃ mid, Chain.apply global event = .ok (some mid) ∧
      Chain.apply (tableChain tables mid) mid = .ok (some out) := by
  simp only [transformEvent, bind_eq_ok] at h
  obtain ⟨mid, hmid, h⟩ := h
  cases mid with
  | none => cases h
  | some mid => exact ⟨mid, hmid, h⟩

theorem fate_isOf {spec : SinkSpec V}
    (h : spec.fate event = .ok (some out)) : IsOf schema table op out ↔ IsOf schema table op event := by
  unfold SinkSpec.fate at h
  split at h
  · cases h
  · obtain ⟨mid, hmid, hout⟩ := transformEvent_some h
    exact (chain_apply_isOf hout).trans (chain_apply_isOf hmid)

/-- **An unwanted event has no image**, unless the destination itself is what does
not want it. -/
theorem fate_of_not_wants (hsound : cel.Sound) {spec : SinkSpec V} {dest : Destination V}
    (h : spec.wants cel dest schema table op = false)
    (hdest : dest.wants schema table op = true) (hof : IsOf schema table op event) :
    spec.fate event ≠ .ok (some out) := by
  intro hfate
  unfold SinkSpec.fate at hfate
  split at hfate
  · cases hfate
  · rename_i hkept
    have htransform : transformWants cel dest.wants spec.global spec.tables schema table op = false := by
      unfold SinkSpec.wants at h
      cases hexcluded : spec.excluded with
      | none => simpa [hexcluded] using h
      | some excluded =>
        obtain ⟨schema', table'⟩ := excluded
        simp only [hexcluded, excludeWants] at h
        split at h
        · rename_i hsame
          obtain ⟨rfl, rfl⟩ := hsame
          exact absurd (by rw [hexcluded, hof.1, hof.2.1]) hkept
        · exact h
    unfold transformWants at htransform
    split at htransform
    · rw [hdest] at htransform
      cases htransform
    · obtain ⟨mid, hmid, hout⟩ := transformEvent_some hfate
      have hofMid : IsOf schema table op mid := (chain_apply_isOf hmid).mpr hof
      simp only at htransform
      split at htransform
      · exact chain_rejects hsound ‹_› hof hmid
      · split at htransform
        · rename_i hrejects
          have hchain : tableChain spec.tables (probe schema table) = tableChain spec.tables mid := by
            simp only [tableChain, probe, hofMid.1, hofMid.2.1]
          exact chain_rejects hsound (hchain ▸ hrejects) hofMid hout
        · rw [hdest] at htransform
          cases htransform

/-! ## What reaches the destination -/

/-- The destination is given events with the property only. -/
def Gives (P : CDCEvent V → Prop) : (sinkSig V).Event → Prop
  | ⟨.process _ events, _⟩ => ∀ e ∈ events, P e
  | _ => True

/-- A sink that gives its destination nothing but events it was given. -/
def KeepsTo (s : Sink V) : Prop :=
  ∀ (P : CDCEvent V → Prop) (events : List (CDCEvent V)), (∀ e ∈ events, P e) →
    Ensures (fun _ => True) (Gives P) (s.process events) fun _ => True

section Layers

variable {P : CDCEvent V → Prop}

theorem ensures_done {α : Type} (a : α) : Ensures (fun _ => True) (Gives P) (pure a : SinkM V α) fun _ => True :=
  .pure trivial

theorem destination_keepsTo (name : String) (limit : Int) : KeepsTo (destination (V := V) name limit) :=
  fun _ _ hevents => Ensures.perform (S := sinkSig V) fun _ _ => ⟨hevents, trivial⟩

variable {inner : Sink V} {events : List (CDCEvent V)}

theorem retryLoop_gives (hi : KeepsTo inner) (hevents : ∀ e ∈ events, P e) (lastErr : Option Err) (left : ℕ) :
    Ensures (fun _ => True) (Gives P) (retryLoop inner events lastErr left) fun _ => True := by
  induction left generalizing lastErr with
  | zero => exact ensures_done lastErr
  | succ left ih =>
    refine (hi P events hevents).bind fun r _ => ?_
    cases r with
    | none => exact ensures_done none
    | some err =>
      simp only
      split
      · exact ensures_done _
      · refine ensures_ask (fun _ => trivial) fun done => ?_
        split
        · exact ensures_done _
        · split
          · exact ensures_done _
          · refine ensures_ask (fun _ => trivial) fun ended => ?_
            split
            · exact ensures_done _
            · exact ih (some err)

theorem resilientSink_keepsTo (hi : KeepsTo inner) (maxRetries : Int) : KeepsTo (resilientSink inner maxRetries) := by
  intro P events hevents
  simp only [resilientSink]
  split
  · exact ensures_done none
  · have hexecute : Ensures (fun _ => True) (Gives P)
        (execute inner.name (processWithRetry inner maxRetries events)) fun _ => True := by
      refine ensures_ask (fun _ => trivial) fun admitted => ?_
      cases admitted with
      | error err => exact ensures_done _
      | ok generation =>
        refine (retryLoop_gives hi hevents none _).bind fun err _ => ?_
        exact ensures_ask (fun _ => trivial) fun _ => ensures_done err
    refine hexecute.bind fun r _ => ?_
    cases r with
    | none => exact ensures_done none
    | some err =>
      simp only
      split <;> exact ensures_done _

theorem stalls_gives (err : Err) : Ensures (fun _ => True) (Gives P) (stalls err) fun _ => True := by
  simp only [stalls]
  split
  · exact ensures_done true
  · split
    · exact ensures_done true
    · exact Ensures.perform (S := sinkSig V) fun _ _ => ⟨trivial, trivial⟩

theorem park_gives (inner : Sink V) (event : CDCEvent V) (cause : Err) :
    Ensures (fun _ => True) (Gives P) (park inner event cause) fun _ => True := by
  refine ensures_ask (fun _ => trivial) fun info => ?_
  have hpark : Ensures (fun _ => True) (Gives P) (managerPark inner.name event cause info.1 info.2) fun _ => True := by
    refine ensures_ask (fun _ => trivial) fun now => ensures_ask (fun _ => trivial) fun r => ?_
    cases r with
    | some err => exact ensures_done _
    | none => exact ensures_ask (fun _ => trivial) fun _ => ensures_done none
  refine hpark.bind fun r _ => ?_
  cases r with
  | none => exact ensures_done none
  | some err => exact ensures_done _

theorem isolateHalf_gives (hi : KeepsTo inner)
    {isolate : List (CDCEvent V) → Err → SinkM V (Option Err)} {half : List (CDCEvent V)} (hhalf : ∀ e ∈ half, P e)
    (hrec : ∀ err, Ensures (fun _ => True) (Gives P) (isolate half err) fun _ => True) :
    Ensures (fun _ => True) (Gives P) (isolateHalf inner isolate half) fun _ => True := by
  refine (hi P half hhalf).bind fun r _ => ?_
  cases r with
  | none => exact ensures_ask (fun _ => trivial) fun _ => ensures_done none
  | some err =>
    refine (stalls_gives err).bind fun stalled _ => ?_
    split
    · exact ensures_done _
    · exact hrec err

theorem isolateFuel_gives (hi : KeepsTo inner) (fuel : ℕ) (hevents : ∀ e ∈ events, P e) (err : Err) :
    Ensures (fun _ => True) (Gives P) (isolateFuel inner fuel events err) fun _ => True := by
  induction fuel generalizing events err with
  | zero => exact ensures_done _
  | succ fuel ih =>
    have hsplit (mid : ℕ) : Ensures (fun _ => True) (Gives P) (do
        match ← isolateHalf inner (isolateFuel inner fuel) (events.take mid) with
        | some err => return some err
        | none => isolateHalf inner (isolateFuel inner fuel) (events.drop mid)) fun _ => True := by
      have htake : ∀ e ∈ events.take mid, P e := fun e he => hevents e (List.mem_of_mem_take he)
      have hdrop : ∀ e ∈ events.drop mid, P e := fun e he => hevents e (List.mem_of_mem_drop he)
      refine (isolateHalf_gives hi htake fun err => ih htake err).bind fun r _ => ?_
      cases r with
      | some err => exact ensures_done _
      | none => exact isolateHalf_gives hi hdrop fun err => ih hdrop err
    match events with
    | [] => exact hsplit _
    | [event] => exact park_gives inner event err
    | _ :: _ :: _ => exact hsplit _

theorem dlqSink_keepsTo (hi : KeepsTo inner) : KeepsTo (dlqSink inner) := by
  intro P events hevents
  simp only [dlqSink]
  cases events with
  | nil => exact ensures_done none
  | cons first rest =>
    refine (hi P _ hevents).bind fun r _ => ?_
    cases r with
    | none => exact ensures_ask (fun _ => trivial) fun _ => ensures_done none
    | some err =>
      refine (stalls_gives err).bind fun stalled _ => ?_
      have hisolate := isolateFuel_gives hi (first :: rest).length hevents err
      cases stalled with
      | true => exact ensures_done _
      | false =>
        simp only [Bool.false_eq_true, if_false]
        split
        · refine ensures_ask (fun _ => trivial) fun record => ?_
          obtain ⟨count, firstFailed, reached⟩ := record
          cases reached with
          | true => exact hisolate
          | false => exact ensures_done _
        · exact hisolate

theorem wrapResilienceAndDLQ_keepsTo (cfg : SinksConfig V) (name : String) (limit : Int) :
    KeepsTo (wrapResilienceAndDLQ cfg (destination name limit)) := by
  have hresilient := resilientSink_keepsTo (destination_keepsTo (V := V) name limit) cfg.maxRetries
  unfold wrapResilienceAndDLQ
  cases cfg.dlq with
  | true => exact dlqSink_keepsTo hresilient
  | false => exact hresilient

/-- The transforms give the sink below images of events only. -/
theorem transformSink_gives (hi : KeepsTo inner) {global : Option (Chain V)} {tables : List (String × Chain V)}
    (hevents : ∀ e ∈ events, ∀ out, transformEvent global tables e = .ok (some out) → P out) :
    Ensures (fun _ => True) (Gives P) ((transformSink inner global tables).process events) fun _ => True := by
  unfold transformSink
  split
  · rename_i hnone
    simp only [Bool.and_eq_true, Option.isNone_iff_eq_none, List.isEmpty_iff] at hnone
    obtain ⟨rfl, rfl⟩ := hnone
    exact hi P events fun e he => hevents e he e (transformEvent_nil e)
  · simp only
    cases hbatch : transformBatch global tables events with
    | error err => exact ensures_done _
    | ok out =>
      have hout : ∀ e ∈ out, P e := by
        intro e he
        rw [(transformBatch_ok hbatch).1] at he
        obtain ⟨e₀, he₀, hkept⟩ := List.mem_filterMap.mp he
        refine hevents e₀ he₀ e ?_
        unfold kept at hkept
        split at hkept
        · rename_i hfate
          rw [hfate, hkept]
        · cases hkept
      cases out with
      | nil => exact ensures_done none
      | cons e out => exact hi P (e :: out) hout

end Layers

/-- **Only images reach the destination.** -/
theorem build_reaches (cfg : SinksConfig V) (spec : SinkSpec V) {events : List (CDCEvent V)} {t : Trace V} {r : Option Err}
    (h : Exec ((spec.build cfg).process events) t r) {name : String} {batch : List (CDCEvent V)} {answer : Option Err}
    (hasked : ⟨.process name batch, answer⟩ ∈ t) :
    ∀ out ∈ batch, ∃ event ∈ events, spec.fate event = .ok (some out) := by
  let P : CDCEvent V → Prop := fun out => ∃ event ∈ events, spec.fate event = .ok (some out)
  suffices hgives : Ensures (fun _ => True) (Gives P) ((spec.build cfg).process events) fun _ => True from
    (hgives t r h fun _ _ => trivial).1 _ hasked
  have hwrapped := wrapResilienceAndDLQ_keepsTo cfg spec.name spec.maxBatchEvents
  unfold SinkSpec.build
  cases hexcluded : spec.excluded with
  | none =>
    refine transformSink_gives hwrapped fun e he out hout => ⟨e, he, ?_⟩
    simpa [SinkSpec.fate, hexcluded] using hout
  | some excluded =>
    obtain ⟨schema, table⟩ := excluded
    have hkept : ∀ e ∈ withoutTable schema table events, ∀ out,
        transformEvent spec.global spec.tables e = .ok (some out) → P out := by
      intro e he out hout
      rw [withoutTable_eq_filter] at he
      obtain ⟨hmem, hother⟩ := List.mem_filter.mp he
      refine ⟨e, hmem, ?_⟩
      rw [SinkSpec.fate, if_neg]
      · exact hout
      · rw [hexcluded]
        intro hsame
        simp only [Option.some.injEq, Prod.mk.injEq] at hsame
        simp [← hsame.1, ← hsame.2] at hother
    simp only [excludeTable]
    cases hbatch : withoutTable schema table events with
    | nil => exact ensures_done none
    | cons e rest => exact transformSink_gives hwrapped (hbatch ▸ hkept)

/-- **`Wants` is sound.** For every stack over every concrete sink: what a table and
operation that it does not want could add to a batch is not there, in any batch
that the destination is asked to process in any execution of `Process`. And when
`Coordinator.wanted` rejects a table, the destinations of all sinks produce from
its READ rows what they produce from an empty batch. -/
theorem wants_sound (cel : PartialCel V) (hsound : cel.Sound) (cfg : SinksConfig V) :
    (∀ (spec : SinkSpec V) (dest : Destination V) (schema table : String) (op : Operation),
      spec.wants cel dest schema table op = false → ∀ (events : List (CDCEvent V)) (t : Trace V) (r : Option Err),
      Exec ((spec.build cfg).process events) t r → ∀ (name : String) (batch : List (CDCEvent V)) (answer : Option Err),
      ⟨.process name batch, answer⟩ ∈ t → dest.produce batch = dest.produce (without schema table op batch)) ∧
    (∀ (sinks : List (SinkSpec V × Destination V)) (schema table : String),
      coordinatorWanted cel sinks schema table = false → ∀ sink ∈ sinks, ∀ (events : List (CDCEvent V)),
      (∀ e ∈ events, IsOf schema table .read e) → ∀ (t : Trace V) (r : Option Err),
      Exec ((sink.1.build cfg).process events) t r → ∀ (name : String) (batch : List (CDCEvent V)) (answer : Option Err),
      ⟨.process name batch, answer⟩ ∈ t → sink.2.produce batch = sink.2.produce []) := by
  have hstack (spec : SinkSpec V) (dest : Destination V) (schema table : String) (op : Operation)
      (hwants : spec.wants cel dest schema table op = false) (events : List (CDCEvent V)) (t : Trace V) (r : Option Err)
      (hexec : Exec ((spec.build cfg).process events) t r) (name : String) (batch : List (CDCEvent V))
      (answer : Option Err) (hasked : ⟨.process name batch, answer⟩ ∈ t) :
      dest.produce batch = dest.produce (without schema table op batch) := by
    cases hdest : dest.wants schema table op with
    | false => exact Destination.produce_without hdest batch
    | true =>
      rw [without_eq_self]
      intro out hout hof
      obtain ⟨event, -, hfate⟩ := build_reaches cfg spec hexec hasked out hout
      exact fate_of_not_wants hsound hwants hdest ((fate_isOf hfate).mp hof) hfate
  refine ⟨hstack, fun sinks schema table hwanted sink hsink events hread t r hexec name batch answer hasked => ?_⟩
  obtain ⟨spec, dest⟩ := sink
  have hwants : spec.wants cel dest schema table .read = false := by
    simpa using List.any_eq_false.mp hwanted (spec, dest) hsink
  rw [hstack spec dest schema table .read hwants events t r hexec name batch answer hasked]
  congr 1
  refine List.filter_eq_nil_iff.mpr fun out hout => ?_
  obtain ⟨event, hevent, hfate⟩ := build_reaches cfg spec hexec hasked out hout
  simpa using (fate_isOf hfate).mpr (hread event hevent)

/-! ## A filter on the operation -/

/-- The most that partial evaluation can tell. -/
noncomputable def exactPartial : PartialCel V where
  partialVars _ _ _ := none
  eval prg op schema table :=
    open Classical in
    if ∀ new old, prg op schema table new old = .ok (.inl false) then .ok (some false) else .ok none

theorem exactPartial_sound : (exactPartial : PartialCel V).Sound := by
  intro prg op schema table h
  simp only [exactPartial] at h
  split at h
  · assumption
  · cases h

/-- The webhook, with the filter `op != "READ"`. -/
def liveOnly : SinkSpec ℕ :=
  { name := "webhook", maxBatchEvents := 1, tables := [], excluded := none
    global := some ⟨[⟨some fun op _ _ _ _ => .ok (.inl (op ≠ "READ")), [], []⟩]⟩ }

def endpoint : Destination ℕ :=
  .webhook { url := "http://localhost", authHeader := "", signingSecret := "", filter := none, marshal := fun _ => none,
             newRequest := none, sign := fun _ _ _ => "" }

def noDLQ : SinksConfig ℕ := { maxRetries := 0, dlq := false, outbox := none, sinks := [], outboxName := "outbox" }

def readRow : CDCEvent ℕ := { (bareEvent "bf:1" : CDCEvent ℕ) with operation := .read }

def insertedTrace : Trace ℕ :=
  [⟨.beforeRequest "webhook", .ok 0⟩, ⟨.process "webhook" [bareEvent "0/1"], none⟩, ⟨.afterRequest "webhook" 0 true, ()⟩]

theorem liveOnly_wants : liveOnly.wants exactPartial endpoint "public" "users" .read = false := by
  simp [SinkSpec.wants, liveOnly, transformWants, Chain.rejectsAll, rejectsSteps, exactPartial, Operation.string]

theorem wants_sound_liveOnly :
    Exec ((liveOnly.build noDLQ).process [readRow, bareEvent "0/1"]) insertedTrace none ∧
    Exec ((liveOnly.build noDLQ).process [readRow]) [] none ∧
    (∀ name batch answer, ⟨.process name batch, answer⟩ ∈ insertedTrace →
      endpoint.produce batch = endpoint.produce (without "public" "users" .read batch)) ∧
    ∀ name batch answer, ⟨.process name batch, answer⟩ ∈ ([] : Trace ℕ) → endpoint.produce batch = endpoint.produce [] := by
  have hexec : Exec ((liveOnly.build noDLQ).process [readRow, bareEvent "0/1"]) insertedTrace none :=
    .ask (.ask (.ask .ret))
  have hnothing : Exec ((liveOnly.build noDLQ).process [readRow]) [] none := .ret
  obtain ⟨hstack, hwanted⟩ := wants_sound exactPartial exactPartial_sound noDLQ
  refine ⟨hexec, hnothing, hstack liveOnly endpoint "public" "users" .read liveOnly_wants _ _ _ hexec,
    hwanted [(liveOnly, endpoint)] "public" "users" ?_ (liveOnly, endpoint) (by simp) [readRow] ?_ _ _ hnothing⟩
  · simp [coordinatorWanted, liveOnly_wants]
  · simp [IsOf, readRow, bareEvent]

end Gtc
