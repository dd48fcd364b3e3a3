/-
No silent loss through the sink stack: when `handleBatch` returns nil, every
event of the batch is settled at every sink, or was kept out of it on
purpose, and each sink settled its events in the order of the batch.
-/
import Gtc.Sink.Accounting
import Gtc.Sink.Service

namespace Gtc

open Lib

variable {V : Type}

/-! ## The copy-on-drop filters -/

theorem withoutTable_eq_filter (schema table : String) (events : List (CDCEvent V)) :
    withoutTable schema table events = events.filter fun e => !(e.schema == schema && e.table == table) := by
  have hbne : (fun e : CDCEvent V => e.schema != schema || e.table != table) =
      fun e => !(e.schema == schema && e.table == table) := by
    funext e; simp [bne]
  unfold withoutTable
  rw [hbne]
  split
  · next h =>
    rw [List.findIdx?_eq_none_iff] at h
    exact (List.filter_eq_self.mpr fun e he => by rw [h e he]; rfl).symm
  · next i h =>
    obtain ⟨hi, hp, hlt⟩ := List.findIdx?_eq_some_iff_getElem.mp h
    have hpre : (events.take i).filter (fun e => !(e.schema == schema && e.table == table)) = events.take i := by
      refine List.filter_eq_self.mpr fun e he => ?_
      obtain ⟨j, hj, rfl⟩ := List.mem_iff_getElem.mp he
      simp only [List.length_take] at hj
      rw [List.getElem_take, Bool.eq_false_iff.mpr (hlt j (by omega))]
      rfl
    conv_rhs => rw [← List.take_append_drop i events, List.filter_append, hpre,
      List.drop_eq_getElem_cons hi, List.filter_cons, hp]
    rfl

/-- Invariant of the loop of `admit`: before the first drop everything seen
was kept, afterwards the copy holds what was kept. -/
theorem admitLoop_eq_filter (cfg : CDCServiceConfig) (events : List (CDCEvent V)) :
    ∀ (rest pre : List (CDCEvent V)) (copied : Bool), events = pre ++ rest →
      (copied = false → pre.filter (fun e => !cfg.isTableExcluded e.schema e.table) = pre) →
      admitLoop cfg events pre.length rest
          (if copied then pre.filter (fun e => !cfg.isTableExcluded e.schema e.table) else events) copied =
        events.filter fun e => !cfg.isTableExcluded e.schema e.table := by
  intro rest
  induction rest with
  | nil =>
    rintro pre copied rfl hpre
    rw [admitLoop, List.append_nil]
    cases copied with
    | true => rfl
    | false => exact (hpre rfl).symm
  | cons e rest ih =>
    intro pre copied hev hpre
    have hlen : pre.length + 1 = (pre ++ [e]).length := by simp
    rw [admitLoop, hlen]
    cases hx : cfg.isTableExcluded e.schema e.table with
    | true =>
      rw [if_pos rfl, ← ih (pre ++ [e]) true (by simp [hev]) (by simp)]
      congr 1
      cases copied with
      | true => simp [hx]
      | false => simp [hx, hev, hpre rfl]
    | false =>
      rw [if_neg (by simp), ← ih (pre ++ [e]) copied (by simp [hev]) fun hc => by simp [hx, hpre hc]]
      congr 1
      cases copied with
      | true => simp [hx]
      | false => rfl

theorem admitEvents_eq_filter (cfg : CDCServiceConfig) (events : List (CDCEvent V)) :
    admitEvents cfg events = events.filter fun e => !cfg.isTableExcluded e.schema e.table :=
  admitLoop_eq_filter cfg events events [] false rfl fun _ => rfl

/-! ## The layers -/

/-- What a sink makes of an admitted event: `ok none` when its table is kept
out or the chains decide not to keep it, its transformed form, or the error
of a filter. -/
def SinkSpec.fate (spec : SinkSpec V) (e : CDCEvent V) : Except Err (Option (CDCEvent V)) :=
  if spec.excluded = some (e.schema, e.table) then .ok none else transformEvent spec.global spec.tables e

/-- The form in which an event reaches a destination, if it does. -/
def kept (fate : CDCEvent V → Except Err (Option (CDCEvent V))) (e : CDCEvent V) : Option (CDCEvent V) :=
  match fate e with
  | .ok out => out
  | .error _ => none

/-- A sink that treats its events by `fate`: it settles the images in order,
and returns nil only when no event raised an error. -/
def Follows (fate : CDCEvent V → Except Err (Option (CDCEvent V))) (process : List (CDCEvent V) → SinkM V (Option Err)) :
    Prop :=
  ∀ events, Accounts (process events) (events.filterMap (kept fate)) ∧
    ∀ t, Exec (process events) t none → ∀ e ∈ events, ∃ out, fate e = .ok out

variable {cfg : SinksConfig V} {spec : SinkSpec V} {sinks : List (Sink V)} {events : List (CDCEvent V)}

theorem wrapResilienceAndDLQ_accounts (hm : 0 ≤ cfg.maxRetries) (name : String) (limit : Int)
    (events : List (CDCEvent V)) :
    Accounts ((wrapResilienceAndDLQ cfg (destination name limit)).process events) events := by
  have hd := resilientSink_delivers (destination_delivers (V := V) name limit) hm
  unfold wrapResilienceAndDLQ
  cases cfg.dlq with
  | true => exact dlqSink_accounts hd events
  | false => exact (hd events).accounts

theorem transformBatch_ok {global : Option (Chain V)} {tables : List (String × Chain V)} :
    ∀ {events out : List (CDCEvent V)}, transformBatch global tables events = .ok out →
      out = events.filterMap (kept (transformEvent global tables)) ∧
        ∀ e ∈ events, ∃ o, transformEvent global tables e = .ok o
  | [], out, h => by cases h; simp
  | e :: events, out, h => by
    rw [transformBatch] at h
    cases he : transformEvent global tables e with
    | error err => rw [he] at h; cases h
    | ok o =>
      rw [he] at h
      cases hr : transformBatch global tables events with
      | error err => rw [hr] at h; cases h
      | ok rest =>
        rw [hr] at h
        cases h
        obtain ⟨rfl, hall⟩ := transformBatch_ok hr
        refine ⟨?_, List.forall_mem_cons.mpr ⟨⟨o, he⟩, hall⟩⟩
        cases o <;> simp [kept, he]

theorem transformEvent_nil (e : CDCEvent V) : transformEvent none [] e = .ok (some e) := rfl

theorem transformSink_follows {inner : Sink V} (hi : ∀ events, Accounts (inner.process events) events)
    (global : Option (Chain V)) (tables : List (String × Chain V)) :
    Follows (transformEvent global tables) (transformSink inner global tables).process := by
  intro events
  unfold transformSink
  split
  · next hnone =>
    simp only [Bool.and_eq_true, Option.isNone_iff_eq_none, List.isEmpty_iff] at hnone
    obtain ⟨rfl, rfl⟩ := hnone
    have himg : events.filterMap (kept (transformEvent none [])) = events := by
      simp [funext fun e => show kept (transformEvent none []) e = some e from rfl]
    rw [himg]
    exact ⟨hi events, fun _ _ e _ => ⟨some e, rfl⟩⟩
  · dsimp only
    cases hb : transformBatch global tables events with
    | error err =>
      refine ⟨(allOrNothing_some _ _).accounts, fun t h => ?_⟩
      cases (exec_pure.mp h).2
    | ok out =>
      obtain ⟨rfl, hall⟩ := transformBatch_ok hb
      cases hout : events.filterMap (kept (transformEvent global tables)) with
      | nil =>
        refine ⟨fun t r h => ?_, fun _ _ => hall⟩
        obtain ⟨rfl, rfl⟩ := exec_pure.mp h
        simp
      | cons e out => exact ⟨hi (e :: out), fun _ _ => hall⟩

theorem excludeTable_follows {inner : Sink V} {schema table : String}
    (hi : Follows (transformEvent spec.global spec.tables) inner.process) (hx : spec.excluded = some (schema, table)) :
    Follows spec.fate (excludeTable inner schema table).process := by
  intro events
  have hfate : ∀ e : CDCEvent V, spec.fate e =
      if e.schema == schema && e.table == table then .ok none else transformEvent spec.global spec.tables e := by
    intro e
    simp only [SinkSpec.fate, hx, Option.some.injEq, Prod.mk.injEq, Bool.and_eq_true, beq_iff_eq,
      eq_comm (a := schema), eq_comm (a := table)]
  have himg : events.filterMap (kept spec.fate) =
      (withoutTable schema table events).filterMap (kept (transformEvent spec.global spec.tables)) := by
    rw [withoutTable_eq_filter, List.filterMap_filter]
    congr 1
    funext e
    simp only [kept, hfate]
    cases e.schema == schema && e.table == table <;> rfl
  have hall : (∀ e ∈ withoutTable schema table events, ∃ out, transformEvent spec.global spec.tables e = .ok out) →
      ∀ e ∈ events, ∃ out, spec.fate e = .ok out := by
    intro h e he
    rw [hfate]
    cases hp : e.schema == schema && e.table == table with
    | true => exact ⟨none, rfl⟩
    | false =>
      refine h e ?_
      rw [withoutTable_eq_filter, List.mem_filter, hp]
      exact ⟨he, rfl⟩
  rw [himg]
  simp only [excludeTable]
  cases hk : withoutTable schema table events with
  | nil =>
    refine ⟨fun t r h => ?_, fun _ _ => hall (by simp [hk])⟩
    obtain ⟨rfl, rfl⟩ := exec_pure.mp h
    simp
  | cons e rest => exact ⟨(hi (e :: rest)).1, fun t h => hall (hk ▸ (hi (e :: rest)).2 t h)⟩

theorem build_follows (hm : 0 ≤ cfg.maxRetries) (spec : SinkSpec V) : Follows spec.fate (spec.build cfg).process := by
  have ht := transformSink_follows (wrapResilienceAndDLQ_accounts hm spec.name spec.maxBatchEvents)
    spec.global spec.tables
  unfold SinkSpec.build
  cases hx : spec.excluded with
  | none =>
    have hfate : spec.fate = transformEvent spec.global spec.tables := by
      funext e; simp [SinkSpec.fate, hx]
    rw [hfate]
    exact ht
  | some outbox => exact excludeTable_follows ht hx

/-! ## Slices -/

theorem deliverSlices_follows {fate : CDCEvent V → Except Err (Option (CDCEvent V))} {s : Sink V}
    (hs : Follows fate s.process) {limit : ℕ} (hl : 0 < limit) :
    ∀ (fuel : ℕ) (events : List (CDCEvent V)), events.length ≤ fuel →
      Accounts (deliverSlices s limit fuel events) (events.filterMap (kept fate)) ∧
        ∀ t, Exec (deliverSlices s limit fuel events) t none → ∀ e ∈ events, ∃ out, fate e = .ok out := by
  intro fuel
  induction fuel with
  | zero =>
    intro events hle
    obtain rfl := List.length_eq_zero_iff.mp (Nat.le_zero.mp hle)
    refine ⟨fun t r h => ?_, by simp⟩
    obtain ⟨rfl, rfl⟩ := exec_pure.mp h
    simp
  | succ fuel ih =>
    intro events hle
    match events with
    | [] =>
      refine ⟨fun t r h => ?_, by simp⟩
      obtain ⟨rfl, rfl⟩ := exec_pure.mp h
      simp
    | a :: rest =>
      obtain ⟨hrest, hrestOk⟩ := ih ((a :: rest).drop limit) (by simp at hle ⊢; omega)
      obtain ⟨hslice, hsliceOk⟩ := hs ((a :: rest).take limit)
      constructor
      · have := hslice.seq hrest
        rwa [← List.filterMap_append, List.take_append_drop] at this
      · intro t h e he
        obtain ⟨t₁, t₂, r₁, rfl, h₁, h₂⟩ := exec_bind.mp h
        cases r₁ with
        | some err => cases (exec_pure.mp h₂).2
        | none =>
          rw [← List.take_append_drop limit (a :: rest), List.mem_append] at he
          rcases he with he | he
          · exact hsliceOk t₁ h₁ e he
          · exact hrestOk t₂ h₂ e he

theorem deliver_follows {fate : CDCEvent V → Except Err (Option (CDCEvent V))} {s : Sink V}
    (hs : Follows fate s.process) : Follows fate (deliver s) := by
  intro events
  unfold deliver
  dsimp only
  split
  · exact hs events
  · next hl =>
    simp only [Bool.or_eq_true, decide_eq_true_eq, not_or, Int.not_le] at hl
    exact deliverSlices_follows hs (by omega) events.length events (Nat.le_refl _)

/-! ## The whole batch -/

theorem ProcessBatch.par {cfg : CDCServiceConfig} {t rs}
    (h : ProcessBatch cfg sinks events t rs) : Par (sinks.map (deliver · events)) t rs := by
  cases h with
  | parallel _ _ h => exact h
  | sequential _ h => exact h.par

theorem batchError_eq_none {results : List (Option Err)} (hlen : results.length = sinks.length)
    (h : batchError sinks results = none) : ∀ (i : ℕ) (r : Option Err), results[i]? = some r → r = none := by
  intro i r hr
  have hnil : (sinks.zip results).filterMap sinkError = [] := by
    unfold batchError at h
    split at h
    · assumption
    · cases h
  obtain ⟨hi, rfl⟩ := List.getElem?_eq_some_iff.mp hr
  have hs : i < sinks.length := by omega
  have := List.filterMap_eq_nil_iff.mp hnil (sinks[i], results[i])
    (List.mem_iff_getElem.mpr ⟨i, by simp; omega, by simp⟩)
  simpa [sinkError] using this

/-- When a batch returns nil, each sink has executed its `deliver` and returned nil. -/
theorem handleBatch_delivered {cfg : CDCServiceConfig}
    {t : List (ℕ × (sinkSig V).Event)} {r : Option Err} (h : HandleBatch cfg sinks events t r) (hr : r = none)
    (hne : admitEvents cfg events ≠ []) {j : ℕ} {sink : Sink V} (hsink : sinks[j]? = some sink) :
    Exec (deliver sink (admitEvents cfg events)) (ofIndex j t) none := by
  cases h with
  | shutdown => cases hr
  | nothing hnone => exact absurd hnone hne
  | @processed t rs _ hp =>
    have hlen : rs.length = sinks.length := by rw [hp.par.length, List.length_map]
    obtain ⟨r, hrj, hx⟩ := hp.par.exec j (deliver sink (admitEvents cfg events)) (by rw [List.getElem?_map, hsink]; rfl)
    obtain rfl := batchError_eq_none hlen hr j r hrj
    exact hx

/-- What one sink of a batch did when the batch returned nil. -/
theorem handleBatch_sink (hm : 0 ≤ cfg.maxRetries) {svc : CDCServiceConfig}
    {specs : List (SinkSpec V)} {t : List (ℕ × (sinkSig V).Event)}
    (h : HandleBatch svc (specs.map (·.build cfg)) events t none) {i : ℕ} (hi : specs[i]? = some spec) :
    settledEvents (ofIndex i t) = (admitEvents svc events).filterMap (kept spec.fate) ∧
      ∀ e ∈ admitEvents svc events, ∃ out, spec.fate e = .ok out := by
  generalize hr : (none : Option Err) = r at h
  cases h with
  | shutdown => cases hr
  | nothing hnone => simp [hnone, ofIndex]
  | @processed t rs hne hp =>
    have hsink : (specs.map (·.build cfg))[i]? = some (spec.build cfg) := by simp [hi]
    have hx := handleBatch_delivered (.processed hne hp) hr.symm hne hsink
    obtain ⟨hacc, hok⟩ := deliver_follows (build_follows hm spec) (admitEvents svc events)
    exact ⟨(hacc _ _ hx).1 rfl, hok _ hx⟩

theorem mem_settledEvents {t : Trace V} {e : CDCEvent V} (h : e ∈ settledEvents t) :
    (∃ name batch, ⟨.process name batch, none⟩ ∈ t ∧ e ∈ batch) ∨ ∃ entry, ⟨.park entry, none⟩ ∈ t ∧ entry.event = e := by
  simp only [settledEvents, settled, List.mem_flatten, List.mem_filterMap] at h
  obtain ⟨batch, ⟨⟨op, answer⟩, hmem, hs⟩, he⟩ := h
  unfold settledBy at hs
  split at hs
  · next name events heq => cases heq; cases hs; exact .inl ⟨name, _, hmem, he⟩
  · next entry heq => cases heq; cases hs; exact .inr ⟨entry, hmem, (List.mem_singleton.mp he).symm⟩
  · cases hs

/-- What becomes of an event of the batch at one sink that did `t`. -/
inductive Accounted (svc : CDCServiceConfig) (spec : SinkSpec V) (t : Trace V) (e : CDCEvent V) : Prop
  /-- Its table is in `ExcludedTables`. -/
  | excludedTable : svc.isTableExcluded e.schema e.table = true → Accounted svc spec t e
  /-- It is an event of the outbox table kept out of this sink. -/
  | outboxTable : spec.excluded = some (e.schema, e.table) → Accounted svc spec t e
  /-- The transform chains decided not to keep it. -/
  | notKept : transformEvent spec.global spec.tables e = .ok none → Accounted svc spec t e
  /-- Its transformed form was in a destination's `Process` that returned nil. -/
  | accepted {e' name batch} : transformEvent spec.global spec.tables e = .ok (some e') →
      ⟨.process name batch, none⟩ ∈ t → e' ∈ batch → Accounted svc spec t e
  /-- `Park` returned nil for an entry holding its transformed form. -/
  | parked {e' entry} : transformEvent spec.global spec.tables e = .ok (some e') →
      ⟨.park entry, none⟩ ∈ t → entry.event = e' → Accounted svc spec t e

/-- The form in which an event of the batch reaches a sink, if it does. -/
def SinkSpec.image (svc : CDCServiceConfig) (spec : SinkSpec V) (e : CDCEvent V) : Option (CDCEvent V) :=
  if svc.isTableExcluded e.schema e.table then none else kept spec.fate e

theorem accounted_of_settled {svc : CDCServiceConfig} {t : Trace V} {e : CDCEvent V}
    {out : Option (CDCEvent V)} (hfate : spec.fate e = .ok out) (hout : ∀ e', out = some e' → e' ∈ settledEvents t) :
    Accounted svc spec t e := by
  unfold SinkSpec.fate at hfate
  split at hfate
  · next hx => exact .outboxTable hx
  · cases out with
    | none => exact .notKept hfate
    | some e' =>
      rcases mem_settledEvents (hout e' rfl) with ⟨name, batch, hmem, he⟩ | ⟨entry, hmem, he⟩
      · exact .accepted hfate hmem he
      · exact .parked hfate hmem he

/-- **No silent loss through the sink stack.** When `handleBatch` returns nil,
for every sink that `newSinks` built and the registry holds (`specs`, in any
order), every event of the batch is accounted for, and the events the sink
accepted or parked are the image of the batch, in its order. -/
theorem handleBatch_no_silent_loss (cfg : SinksConfig V) (hm : 0 ≤ cfg.maxRetries) (svc : CDCServiceConfig)
    (specs : List (SinkSpec V)) (hreg : specs.Perm (newSinkRegistry (newSinks cfg))) (events : List (CDCEvent V))
    (t : List (ℕ × (sinkSig V).Event)) (h : HandleBatch svc (specs.map (·.build cfg)) events t none) :
    ∀ spec ∈ newSinkRegistry (newSinks cfg), ∃ i, specs[i]? = some spec ∧
      (∀ e ∈ events, Accounted svc spec (ofIndex i t) e) ∧
      (settled (ofIndex i t)).flatten = events.filterMap (spec.image svc) := by
  intro spec hspec
  obtain ⟨i, hi⟩ := List.mem_iff_getElem?.mp (hreg.mem_iff.mpr hspec)
  obtain ⟨hset, hok⟩ := handleBatch_sink hm h hi
  refine ⟨i, hi, fun e he => ?_, ?_⟩
  · cases hx : svc.isTableExcluded e.schema e.table with
    | true => exact .excludedTable hx
    | false =>
      have hadm : e ∈ admitEvents svc events := by
        rw [admitEvents_eq_filter, List.mem_filter, hx]
        exact ⟨he, rfl⟩
      obtain ⟨out, hout⟩ := hok e hadm
      refine accounted_of_settled hout fun e' he' => ?_
      rw [hset, List.mem_filterMap]
      exact ⟨e, hadm, by rw [kept, hout, he']⟩
  · change settledEvents (ofIndex i t) = _
    rw [hset, admitEvents_eq_filter, List.filterMap_filter]
    congr 1
    funext e
    unfold SinkSpec.image
    cases svc.isTableExcluded e.schema e.table <;> rfl

/-- One sink with a DLQ and no transforms. -/
def oneSink : SinksConfig Unit :=
  { maxRetries := 0, dlq := true, outbox := none, sinks := [("s", 0, none, [])], outboxName := "outbox" }

/-- Two sinks with a DLQ: one takes INSERTs only, two events at a time, the other
everything at once. -/
def twoSinks : SinksConfig Unit :=
  let inserts : CelProgram Unit := fun op _ _ _ _ => .ok (.inl (op == "INSERT"))
  { oneSink with sinks := [("s", 2, some ⟨[⟨some inserts, [], []⟩]⟩, []), ("r", 0, none, [])] }

/-- A DELETE among INSERTs, and a row of a table that is excluded. -/
def mixedEvents : List (CDCEvent Unit) :=
  [bareEvent "0/1", { (bareEvent "0/2" : CDCEvent Unit) with table := "audit" },
    { (bareEvent "0/3" : CDCEvent Unit) with operation := .delete, oldData := some [], newData := none }, bareEvent "0/4",
    bareEvent "0/5"]

/-- The first sink accepts its first slice; of the second one it accepts one event
and the other one is parked. -/
def slicedTrace : Trace Unit :=
  let rejected : Err := .permanent (.new "rejected")
  [⟨.beforeRequest "s", .ok 0⟩, ⟨.process "s" [bareEvent "0/1"], none⟩, ⟨.afterRequest "s" 0 true, ()⟩,
    ⟨.clearFailures "s" ["0/1"], ()⟩, ⟨.beforeRequest "s", .ok 0⟩,
    ⟨.process "s" [bareEvent "0/4", bareEvent "0/5"], some rejected⟩, ⟨.afterRequest "s" 0 true, ()⟩, ⟨.ctxErr, false⟩,
    ⟨.beforeRequest "s", .ok 0⟩, ⟨.process "s" [bareEvent "0/4"], none⟩, ⟨.afterRequest "s" 0 true, ()⟩,
    ⟨.clearFailures "s" ["0/4"], ()⟩, ⟨.beforeRequest "s", .ok 0⟩, ⟨.process "s" [bareEvent "0/5"], some rejected⟩,
    ⟨.afterRequest "s" 0 true, ()⟩, ⟨.ctxErr, false⟩, ⟨.failureInfo "s" "0/5", (1, 7)⟩, ⟨.now, 7⟩,
    ⟨.park { id := "s:0/5", sinkName := "s", schema := "public", table := "users", operation := "INSERT", lsn := "0/5"
             error := "rejected", attempts := 1, firstFailedAt := 7, lastFailedAt := 7, event := bareEvent "0/5" }, none⟩,
    ⟨.clearFailure "s" "0/5", ()⟩]

/-- The second sink accepts everything. -/
def wholeTrace : Trace Unit :=
  let events := admitEvents ⟨true, ["audit"]⟩ mixedEvents
  [⟨.beforeRequest "r", .ok 0⟩, ⟨.process "r" events, none⟩, ⟨.afterRequest "r" 0 true, ()⟩,
    ⟨.clearFailures "r" (events.map (·.id)), ()⟩]

def bothTraces : List (ℕ × (sinkSig Unit).Event) := slicedTrace.map ((0, ·)) ++ wholeTrace.map ((1, ·))

theorem handleBatch_no_silent_loss_mixed :
    HandleBatch ⟨true, ["audit"]⟩ ((newSinks twoSinks).map (·.build twoSinks)) mixedEvents bothTraces none ∧
    ∀ spec ∈ newSinks twoSinks, ∃ i, (newSinks twoSinks)[i]? = some spec ∧
      (∀ e ∈ mixedEvents, Accounted ⟨true, ["audit"]⟩ spec (ofIndex i bothTraces) e) ∧
      (settled (ofIndex i bothTraces)).flatten.map (·.id) =
        if spec.name = "s" then ["0/1", "0/4", "0/5"] else ["0/1", "0/3", "0/4", "0/5"] := by
  have hsliced : Exec (deliver (SinkSpec.build twoSinks (newSinks twoSinks)[0]) (admitEvents ⟨true, ["audit"]⟩ mixedEvents))
      slicedTrace none :=
    .ask (.ask (.ask (.ask (.ask (.ask (.ask (.ask (.ask (.ask (.ask (.ask (.ask (.ask (.ask (.ask (.ask (.ask (.ask
      (.ask .ret)))))))))))))))))))
  have hwhole : Exec (deliver (SinkSpec.build twoSinks (newSinks twoSinks)[1]) (admitEvents ⟨true, ["audit"]⟩ mixedEvents))
      wholeTrace none := .ask (.ask (.ask (.ask .ret)))
  have hb : HandleBatch ⟨true, ["audit"]⟩ ((newSinks twoSinks).map (·.build twoSinks)) mixedEvents bothTraces
      (batchError ((newSinks twoSinks).map (·.build twoSinks)) [none, none]) :=
    .processed (by decide) (.parallel rfl (by decide) (InOrder.par (.cons hsliced (.cons hwhole .nil))))
  refine ⟨hb, fun spec hspec => ?_⟩
  obtain ⟨i, hi, haccounted, hs⟩ := handleBatch_no_silent_loss twoSinks (by decide) ⟨true, ["audit"]⟩ (newSinks twoSinks)
    (.refl _) mixedEvents bothTraces hb spec hspec
  refine ⟨i, hi, haccounted, ?_⟩
  rw [hs]
  rcases List.mem_cons.mp hspec with rfl | hspec
  · decide
  · rw [List.mem_singleton.mp hspec]
    decide

end Gtc
