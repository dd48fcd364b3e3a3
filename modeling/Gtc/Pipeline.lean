/-
From the replication slot to the sinks: the reader of `Gtc.Wal.Reader` with
`cdcService.handleBatch` as its handler.
-/
import Gtc.Sink.NoLoss
import Gtc.Wal.Reconnect

namespace Gtc

open Lib Wal

variable {N V : Type}

/-- One call of `handleBatch`: the order in which the registry gave its sinks,
what was asked of them, and what was returned. -/
structure BatchCall (V : Type) where
  specs : List (SinkSpec V)
  trace : List (ℕ × (sinkSig V).Event)
  err : Option Err

/-- The call is one of `handleBatch` over the sinks `newSinks` built. -/
structure BatchCall.Of (cfg : SinksConfig V) (svc : CDCServiceConfig) (events : List (CDCEvent V)) (call : BatchCall V)
    (ok : Bool) : Prop where
  registry : call.specs.Perm (newSinkRegistry (newSinks cfg))
  batch : HandleBatch svc (call.specs.map (·.build cfg)) events call.trace call.err
  result : ok = call.err.isNone

/-- A call that returned nil accounts for each event of its batch at each sink. -/
theorem BatchCall.Of.accounted {cfg : SinksConfig V} (hm : 0 ≤ cfg.maxRetries) {svc : CDCServiceConfig}
    {events : List (CDCEvent V)} {call : BatchCall V} (h : call.Of cfg svc events true) {e : CDCEvent V} (he : e ∈ events)
    {spec : SinkSpec V} (hspec : spec ∈ newSinkRegistry (newSinks cfg)) :
    ∃ i, call.specs[i]? = some spec ∧ Accounted svc spec (ofIndex i call.trace) e := by
  have hnone : call.err = none := Option.isNone_iff_eq_none.mp h.result.symm
  obtain ⟨i, hi⟩ := List.mem_iff_getElem?.mp (h.registry.mem_iff.mpr hspec)
  obtain ⟨hset, hok⟩ := handleBatch_sink hm (hnone ▸ h.batch) hi
  refine ⟨i, hi, ?_⟩
  cases hx : svc.isTableExcluded e.schema e.table with
  | true => exact .excludedTable hx
  | false =>
    have hadm : e ∈ admitEvents svc events := by
      rw [admitEvents_eq_filter, List.mem_filter, hx]
      exact ⟨he, rfl⟩
    obtain ⟨out, hout⟩ := hok e hadm
    refine accounted_of_settled hout fun e' he' => ?_
    rw [hset, List.mem_filterMap]
    exact ⟨e, hadm, by rw [kept, hout, he']⟩

/-- **Nothing is lost between the source and the sinks.** Over every life of a
replication slot (any number of processes on it, that connect, stream, fail,
reconnect, crash and start again, in any interleaving, with any batches and any
outcome of any delivery): for every transaction that ends between the slot's
beginning and its confirmed position there is a connection that was sent the
transaction whole, and every event of every message of it was in a batch that
`handleBatch` returned nil for, in which it is accounted for at every sink: its
table is excluded or the outbox kept out, the transforms dropped it, the
destination accepted it, or it was parked in the dead-letter queue. -/
theorem confirmed_events_accounted [DecidableEq N] (scfg : SinksConfig V) (hm : 0 ≤ scfg.maxRetries)
    (svc : CDCServiceConfig) (cfg : ReaderConfig V) (wal : List Transaction) (slot : Option LSN) (publication : Bool)
    (w : Cluster N V (BatchCall V))
    (hrun : Reaches (Cluster.step cfg) (Cluster.Allowed wal (fun events call ok => call.Of scfg svc events ok))
      (Cluster.onSlot slot publication) w) (lsn : LSN) (hlsn : w.slot = some lsn) :
    ∃ o, w.origin = some o ∧ ∀ t ∈ wal, o < t.ends → t.ends ≤ lsn → ∃ c, w.Has c ∧ t.sent.Sublist c.stream ∧
      ∀ k m, c.stream[k]? = some m → m.txn = some t.ends →
        ∃ events, .decoded k events ∈ c.session.log ∧ ∀ ev ∈ events,
          ∃ call ∈ c.calls, call.evidence.Of scfg svc call.events true ∧ ev.event ∈ call.events ∧
            ∀ spec ∈ newSinkRegistry (newSinks scfg), ∃ i, call.evidence.specs[i]? = some spec ∧
              Accounted svc spec (ofIndex i call.evidence.trace) ev.event := by
  obtain ⟨o, ho, hall⟩ := Cluster.slot_safe hrun hlsn
  refine ⟨o, ho, fun t ht hlt hle => ?_⟩
  obtain ⟨c, hc, hd⟩ := hall t ht hlt hle
  refine ⟨c, hc, hd.whole, fun k m hk htxn => ?_⟩
  obtain ⟨events, hdec, hevents⟩ := hd.events k m hk htxn
  refine ⟨events, hdec, fun ev hev => ?_⟩
  obtain ⟨call, hcall, hok, hmem, hof⟩ := hevents ev hev
  rw [hok] at hof
  exact ⟨call, hcall, hof, hmem, fun spec hspec => hof.accounted hm hmem hspec⟩

/-- An insert, with the table announced before it. -/
def firstInsert : Transaction :=
  ⟨5, [.xLogData 0 0 (.begin 4 0 7), .xLogData 0 0 (.relation ⟨1, "public", "users", 'd', [⟨1, "id", 25⟩]⟩),
    .xLogData 3 3 (.insert 1 (some [.text [49]])), .xLogData 4 4 (.commit 5)]⟩

/-- Its event. -/
def firstEvent : CDCEvent Unit :=
  { bareEvent "0/3" with
    newData := some [("id", some ())], metadata := { lsn := "0/3", transactionID := 7, timestamp := 0 } }

/-- The one sink takes it. -/
def firstCall : BatchCall Unit where
  specs := newSinks oneSink
  trace :=
    [(0, ⟨.beforeRequest "s", .ok 0⟩), (0, ⟨.process "s" [firstEvent], none⟩), (0, ⟨.afterRequest "s" 0 true, ()⟩),
      (0, ⟨.clearFailures "s" ["0/3"], ()⟩)]
  err := none

theorem firstCall_of : firstCall.Of oneSink ⟨true, ["audit"]⟩ [firstEvent] true := by
  have hx : Exec (deliver (SinkSpec.build oneSink ⟨"s", 0, none, [], none⟩) [firstEvent]) (firstCall.trace.map (·.2))
      none := .ask (.ask (.ask (.ask .ret)))
  have hb : HandleBatch ⟨true, ["audit"]⟩ ((newSinks oneSink).map (·.build oneSink)) [firstEvent] firstCall.trace
      (batchError ((newSinks oneSink).map (·.build oneSink)) [none]) :=
    .processed (by decide) (.sequential (by decide) (.cons hx .nil))
  exact ⟨.refl _, hb, rfl⟩

/-- The reader creates the publication and the slot, at position 1. -/
def setup : List (ClusterAct Unit Unit (BatchCall Unit)) :=
  [.boot (), .reader () (.connect true), .reader () (.identify true), .reader () (.ensurePublication true true),
    .reader () (.ensureReplicationSlot true (some 1))]

/-- The insert is received and handed to the handler. -/
def receiveInsert : List (ClusterAct Unit Unit (BatchCall Unit)) :=
  let go : ClusterAct Unit Unit (BatchCall Unit) := .reader () (.conn (.stream .go))
  let skip : ClusterAct Unit Unit (BatchCall Unit) := .reader () (.conn (.stream .skip))
  let receive := [go, skip, go, skip, go]
  receive ++ [go] ++ receive ++ [go] ++ receive ++ [go, go, go, .reader () (.conn .delivery)]

/-- Its commit is received, confirmed and reported. -/
def confirmInsert : List (ClusterAct Unit Unit (BatchCall Unit)) :=
  let go : ClusterAct Unit Unit (BatchCall Unit) := .reader () (.conn (.stream .go))
  let skip : ClusterAct Unit Unit (BatchCall Unit) := .reader () (.conn (.stream .skip))
  let delivery : ClusterAct Unit Unit (BatchCall Unit) := .reader () (.conn .delivery)
  [delivery, delivery, delivery, go, go, skip, go, skip, go, go, go, skip, go, go, go, go,
    .reader () (.conn (.stream .keepalive)), .report () 5]

/-- What the reader's handler is called with. -/
def handled? (w : Cluster Unit Unit (BatchCall Unit)) : Option (List (CDCEvent Unit)) := do
  let c ← w.conn? ()
  let d ← c.session.worker.handling?
  return d.events.map (·.event)

theorem confirmed_events_accounted_insert :
    ∃ w : Cluster Unit Unit (BatchCall Unit), w.slot = some 5 ∧ ∃ c, w.Has c ∧ firstInsert.sent.Sublist c.stream := by
  let cfg : ReaderConfig Unit := ⟨unitConfig 1, 0, 0, true, true⟩
  let allowed : Cluster Unit Unit (BatchCall Unit) → ClusterAct Unit Unit (BatchCall Unit) → Prop :=
    Cluster.Allowed [firstInsert] fun events call ok => call.Of oneSink ⟨true, ["audit"]⟩ events ok
  let begins := setup ++ .reader () (.startReplication firstInsert.sent) :: receiveInsert
  let acts := begins ++ .reader () (.conn (.handler firstCall true)) :: confirmInsert
  have hreceive : ∀ a ∈ receiveInsert, ∀ u, allowed u a := by
    simp [receiveInsert, allowed, Cluster.Allowed, ConnAct.Allowed]
  have hconfirm : ∀ a ∈ confirmInsert, ∀ u, allowed u a := by
    simp [confirmInsert, allowed, Cluster.Allowed, ConnAct.Allowed]
  have hbatch : (runSteps (Cluster.step cfg) (Cluster.onSlot none false) begins).map handled? = some [firstEvent] := by
    decide +kernel
  have hslot : (runSteps (Cluster.step cfg) (Cluster.onSlot none false) acts).map (fun w => (w.slot, w.origin)) =
      some (some 5, some 1) := by
    decide +kernel
  have h₀ (u) (hu : runSteps (Cluster.step cfg) (Cluster.onSlot none false) setup = some u) :
      Reaches (Cluster.step cfg) allowed (Cluster.onSlot none false) u :=
    reaches_of_runSteps_ok (by simp [setup, allowed, Cluster.Allowed]) hu
  have h₁ : ∀ u, runSteps (Cluster.step cfg) (Cluster.onSlot none false) begins = some u → _ :=
    reaches_extend h₀ (fun u hu => by
      cases hu
      rintro r startLSN ⟨⟩ ⟨⟩
      exact ⟨.begin (by decide) (.inside rfl (.inside rfl (.commit .nil))), by simp⟩) hreceive
  have h₂ : ∀ u, runSteps (Cluster.step cfg) (Cluster.onSlot none false) acts = some u → _ :=
    reaches_extend h₁ (fun u hu c hc d hd => by
      have heq : d.events.map (·.event) = [firstEvent] := by
        simpa [hu, handled?, hc, hd] using hbatch
      rw [heq]
      exact firstCall_of) hconfirm
  obtain ⟨w, hw, heq⟩ := Option.map_eq_some_iff.mp hslot
  obtain ⟨hs, horigin⟩ := Prod.mk.inj heq
  obtain ⟨o, ho, h⟩ := confirmed_events_accounted oneSink (by decide) ⟨true, ["audit"]⟩ cfg [firstInsert] none false w
    (h₂ w hw) 5 hs
  obtain rfl : 1 = o := Option.some.inj (horigin.symm.trans ho)
  obtain ⟨c, hc, hwhole, -⟩ := h firstInsert (by simp) (by decide) (by decide)
  exact ⟨w, hs, c, hc, hwhole⟩

end Gtc
