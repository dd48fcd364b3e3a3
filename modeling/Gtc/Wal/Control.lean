/-
What the control points of a session's two goroutines say about each other.

`outstanding` counts the units between the loop and their decrement, so a
zero means the delivery goroutine is idle: while the loop confirms a position
of its own, nothing else writes it.
-/
import Gtc.Wal.Session

namespace Gtc.Wal

open Lib

variable {V : Type}

/-! ## Where a goroutine is -/

/-- The unit the delivery goroutine took and has not finished. -/
def Worker.units : Worker V → List (Delivery V)
  | .idle | .returned => []
  | .handling d | .marking d | .loading d | .storing d | .finishing d | .failed d => [d]

variable {s s' : Session V} {a : StreamAct V} {cfg : Config V}

theorem Session.point_confirming {c : Confirming} (h : s.point = .confirming c) : s.confirming = some c := by
  unfold Session.point at h
  split at h <;> simp_all

theorem Session.point_sending {d : Delivery V} {ds : List (Delivery V)} (h : s.point = .sending d ds) :
    s.confirming = none ∧ s.sending = d :: ds := by
  unfold Session.point at h
  split at h <;> simp_all

theorem Session.point_working {t : Task V} {ts : List (Task V)} (h : s.point = .working t ts) :
    s.confirming = none ∧ s.sending = [] ∧ s.work = t :: ts := by
  unfold Session.point at h
  split at h <;> simp_all

theorem Session.point_loop {pc : LoopPoint} (h : s.point = .loop pc) :
    s.confirming = none ∧ s.sending = [] ∧ s.work = [] ∧ s.pc = pc := by
  unfold Session.point at h
  split at h <;> simp_all

/-! ## Control -/

structure Control (s : Session V) : Prop where
  queueOpen : s.closed = false
  alive : s.worker ≠ .returned
  /-- `outstanding` counts the units handed over and not finished. -/
  count : s.outstanding = s.worker.units.length + s.queue.length + if s.added then 1 else 0
  added : s.added = true → s.sending ≠ []
  /-- Nothing is appended while a unit waits to be enqueued. -/
  sending : s.sending ≠ [] → s.batch = []
  /-- The loop confirms only while nothing is outstanding. -/
  confirming : s.confirming ≠ none → s.worker = .idle ∧ s.queue = [] ∧ s.sending = [] ∧ s.batch = []
  loopStores : ∀ lsn, s.confirming = some (.store lsn) → s.clientLSN < lsn
  workerStores : ∀ d, s.worker = .storing d → s.clientLSN < d.ack

theorem control_start (startLSN : LSN) (decoder : Decoder) : Control (start startLSN decoder : Session V) := by
  constructor <;> simp [start, Worker.units]

theorem Control.confirmStep (h : Control s) {c : Confirming} (hc : s.confirming = some c) :
    Control (Wal.confirmStep s c) := by
  obtain ⟨hw, hq, hs, hb⟩ := h.confirming (by simp [hc])
  cases c with
  | load lsn =>
    refine { h with confirming := fun _ => ⟨hw, hq, hs, hb⟩, loopStores := fun l hl => ?_ }
    simp only [Wal.confirmStep, Option.some.injEq] at hl
    split at hl
    · cases hl; assumption
    · cases hl
  | store lsn =>
    refine { h with confirming := fun _ => ⟨hw, hq, hs, hb⟩, loopStores := ?_, workerStores := ?_ }
    · intro l hl; cases hl
    · intro d hd
      exact absurd (hw.symm.trans hd) (by simp)
  | reset =>
    refine { h with confirming := ?_, loopStores := ?_ }
    · intro hne; exact absurd rfl hne
    · intro l hl; cases hl

theorem Control.report (h : Control s) : Control s.report := { h with }

theorem Control.sendStep (h : Control s) {d : Delivery V} {ds : List (Delivery V)}
    (hc : s.confirming = none) (hs : s.sending = d :: ds) (ha : Wal.sendStep s d ds a = some s')
    (hrun : s'.phase = .running) : Control s' := by
  have hb : s.batch = [] := h.sending (by simp [hs])
  have hcount := h.count
  cases a with
  | go =>
    simp only [Wal.sendStep] at ha
    split at ha
    · next hadd =>
      split at ha
      · cases ha
        refine { h with count := ?_, added := ?_, sending := fun _ => hb, confirming := ?_ }
        · simp only [hadd, if_true] at hcount
          simp [hcount]
          omega
        · intro hf; cases hf
        · intro hne; exact absurd hc hne
      · cases ha
    · next hadd =>
      cases ha
      refine { h with count := ?_, added := fun _ => by simp [hs] }
      simp only [hadd] at hcount
      simp [hcount]
  | keepalive =>
    simp only [Wal.sendStep] at ha
    split at ha
    · cases ha; exact h.report
    · cases ha
  | stop =>
    simp only [Wal.sendStep] at ha
    split at ha
    · cases ha; cases hrun
    · cases ha
  | skip => cases ha
  | rows rows => cases ha

theorem Control.flush (h : Control s) (hc : s.confirming = none) (hadd : s.added = false) : Control s.flush := by
  unfold Session.flush
  split
  · exact h
  · refine { h with added := ?_, sending := fun _ => rfl, confirming := fun hne => absurd hc hne }
    intro hf
    exact absurd (hadd.symm.trans hf) (by simp)

theorem Control.appendEvent (h : Control s) (hc : s.confirming = none) (hs : s.sending = [])
    (hadd : s.added = false) (maxBatch : ℕ) (e : Event V) : Control (s.appendEvent maxBatch e) := by
  have happ : Control { s with batch := s.batch ++ [e] } :=
    { h with sending := fun hne => absurd hs hne, confirming := fun hne => absurd hc hne }
  unfold Session.appendEvent
  dsimp only
  split
  · exact happ.flush hc hadd
  · exact happ

theorem Control.workStep (h : Control s) {t : Task V} {ts : List (Task V)}
    (hc : s.confirming = none) (hs : s.sending = []) (ha : Wal.workStep cfg s t ts a = some s')
    (hrun : s'.phase = .running) : Control s' := by
  have hadd : s.added = false := by
    by_contra hne
    exact h.added (by simpa using hne) hs
  have hpop : Control { s with work := ts } := { h with }
  cases a with
  | go =>
    cases t with
    | append e => cases ha; exact hpop.appendEvent hc hs hadd _ e
    | handleWatermark k content =>
      simp only [Wal.workStep] at ha
      split at ha
      · cases ha
      · cases ha; exact h.flush hc hadd
    | ack lsn => cases ha; exact { h with }
    | reply => cases ha
  | rows rows =>
    cases t with
    | handleWatermark k content =>
      simp only [Wal.workStep] at ha
      split at ha
      · next hb =>
        cases ha
        exact { h with
          added := fun hf => absurd (hadd.symm.trans hf) (by simp)
          sending := fun _ => hb
          confirming := fun hne => absurd hc hne }
      · cases ha
    | append | ack | reply => cases ha
  | keepalive =>
    cases t with
    | reply => cases ha; exact hpop.report
    | append | ack | handleWatermark => cases ha
  | stop =>
    cases t with
    | reply => cases ha; cases hrun
    | append | ack | handleWatermark => cases ha
  | skip => cases ha

/-- A received message ends the loop, or decodes and leaves work. -/
theorem receiveStep_cases (cfg : Config V) (s : Session V) (m : BackendMessage) :
    (receiveStep cfg s m).phase = .draining ∨ ∃ result decoder, s.decoder.decode cfg.typeMap m = .ok (result, decoder) ∧
      receiveStep cfg s m = { s with
        received := s.received + 1, pc := .check, decoder, work := Session.messageTasks cfg s.received result,
        log := s.log ++ [Entry.decoded s.received (tag (.wal s.received) result.events)] } := by
  unfold receiveStep
  dsimp only
  split
  · exact .inl rfl
  · split
    · exact .inl rfl
    · next result decoder hd => exact .inr ⟨result, decoder, hd, rfl⟩

theorem Control.loopStep {stream : List BackendMessage} (h : Control s)
    {pc : LoopPoint} (hc : s.confirming = none) (hs : s.sending = [])
    (ha : Wal.loopStep cfg stream s pc a = some s') (hrun : s'.phase = .running) : Control s' := by
  have hadd : s.added = false := by
    by_contra hne
    exact h.added (by simpa using hne) hs
  unfold Wal.loopStep at ha
  split at ha
  · split at ha
    · cases ha
    · cases ha; exact { h with }
  · cases ha; cases hrun
  · cases ha
    exact Control.flush (s := { s with pc := .idle }) { h with } hc hadd
  · cases ha; exact { h with }
  · split at ha
    · next hidle =>
      cases ha
      -- Nothing outstanding: the worker has no unit and the queue is empty.
      have hcount := h.count
      rw [hidle.2.2, hadd] at hcount
      have hw : s.worker = .idle := by
        cases hw : s.worker with
        | idle => rfl
        | returned => exact absurd hw h.alive
        | handling | marking | loading | storing | finishing | failed =>
          rw [hw] at hcount
          simp [Worker.units] at hcount
          omega
      have hq : s.queue = [] := by
        rw [hw] at hcount
        simp [Worker.units] at hcount
        exact List.length_eq_zero_iff.mp (by omega)
      exact { h with
        confirming := fun _ => ⟨hw, hq, hs, hidle.2.1⟩
        loopStores := fun l hl => (by cases hl) }
    · cases ha; exact { h with }
  · cases ha; exact Control.report (s := { s with pc := .receive }) { h with }
  · cases ha; exact { h with }
  · cases ha; cases hrun
  · obtain ⟨m, -, rfl⟩ := Option.map_eq_some_iff.mp ha
    rcases receiveStep_cases cfg s m with hdrain | ⟨result, decoder, -, heq⟩
    · rw [hdrain] at hrun; cases hrun
    · rw [heq]; exact { h with }
  · cases ha; exact { h with }
  · cases ha; cases hrun
  · cases ha

/-- The delivery goroutine moves on with its unit. -/
theorem Control.withWorker (h : Control s) (hw : s.worker ≠ .idle) {w : Worker V}
    (hunits : w.units.length = s.worker.units.length) (halive : w ≠ .returned)
    (hstores : ∀ d, w = .storing d → s.clientLSN < d.ack) : Control { s with worker := w } where
  queueOpen := h.queueOpen
  alive := halive
  count := by rw [h.count, ← hunits]
  added := h.added
  sending := h.sending
  confirming hne := absurd (h.confirming hne).1 hw
  loopStores := h.loopStores
  workerStores := hstores

theorem Control.deliveryStep (h : Control s) {ok : Bool} (ha : Wal.deliveryStep s ok = some s') : Control s' := by
  have hnone : s.worker ≠ .idle → s.confirming = none := by
    intro hw
    by_contra hne
    exact hw (h.confirming hne).1
  cases hw : s.worker with
  | idle =>
    simp only [Wal.deliveryStep, hw] at ha
    cases hq : s.queue with
    | nil => simp [hq, h.queueOpen] at ha
    | cons d queue =>
      have hcount : s.outstanding = ([d] : List (Delivery V)).length + queue.length + if s.added then 1 else 0 := by
        rw [h.count, hw, hq]; simp [Worker.units]; omega
      have hconf : s.confirming = none := by
        by_contra hne
        exact absurd (h.confirming hne).2.1 (by simp [hq])
      simp only [hq] at ha
      split at ha <;> cases ha
      · exact { h with alive := by simp, count := hcount, confirming := fun hne => absurd hconf hne
                       workerStores := fun d hd => (by cases hd) }
      · exact { h with alive := by simp, count := hcount, confirming := fun hne => absurd hconf hne
                       workerStores := fun d hd => (by cases hd) }
  | handling d =>
    simp only [Wal.deliveryStep, hw] at ha
    have hnext := @Control.withWorker V s h (by simp [hw])
    split at ha <;> cases ha
    · exact { hnext (w := .marking d) (by simp [hw, Worker.units]) (by simp) (by simp) with }
    · exact { hnext (w := .failed d) (by simp [hw, Worker.units]) (by simp) (by simp) with }
  | marking d =>
    simp only [Wal.deliveryStep, hw] at ha
    cases ha
    exact { h.withWorker (w := .loading d) (by simp [hw]) (by simp [hw, Worker.units]) (by simp) (by simp) with }
  | loading d =>
    simp only [Wal.deliveryStep, hw] at ha
    split at ha <;> cases ha
    · next hlt =>
      exact h.withWorker (by simp [hw]) (by simp [hw, Worker.units]) (by simp) fun d' hd => (by cases hd; exact hlt.2)
    · exact h.withWorker (by simp [hw]) (by simp [hw, Worker.units]) (by simp) (by simp)
  | storing d =>
    simp only [Wal.deliveryStep, hw] at ha
    cases ha
    have hnext := h.withWorker (w := .finishing d) (by simp [hw]) (by simp [hw, Worker.units]) (by simp) (by simp)
    exact { hnext with
      loopStores := fun l hl => absurd ((hnone (by simp [hw])).symm.trans hl) (by simp)
      workerStores := fun d hd => (by cases hd) }
  | finishing d =>
    simp only [Wal.deliveryStep, hw] at ha
    cases ha
    have hcount := h.count
    rw [hw] at hcount
    exact { h with alive := by simp, count := by simp [Worker.units] at hcount ⊢; omega
                   confirming := fun hne => absurd (hnone (by simp [hw])) hne
                   workerStores := fun d hd => (by cases hd) }
  | failed d => simp [Wal.deliveryStep, hw] at ha
  | returned => exact absurd hw h.alive

/-! ## Phases -/

/-- A session that has begun its teardown never runs again. -/
theorem teardownStep_phase (h : s.phase ≠ .running) (ha : teardownStep s = some s') : s'.phase ≠ .running := by
  unfold teardownStep at ha
  split at ha
  · split at ha
    · cases ha; exact h
    · cases ha; simp
  · split at ha
    · cases ha; simp
    · cases ha; simp
    · cases ha
  · cases ha

theorem deliveryStep_phase {ok : Bool} (ha : deliveryStep s ok = some s') : s'.phase = s.phase := by
  unfold deliveryStep at ha
  split at ha
  · split at ha
    · split at ha <;> cases ha <;> rfl
    · split at ha
      · cases ha; rfl
      · cases ha
  · split at ha <;> cases ha <;> rfl
  · cases ha; rfl
  · cases ha; rfl
  · cases ha; rfl
  · cases ha; rfl
  · cases ha
  · cases ha

theorem Control.streamStep {stream : List BackendMessage} (h : Control s)
    (hrun : s.phase = .running) (ha : Wal.streamStep cfg stream s a = some s')
    (hrun' : s'.phase = .running) : Control s' := by
  simp only [Wal.streamStep, hrun, if_true] at ha
  split at ha
  · next c hp => cases ha; exact h.confirmStep (Session.point_confirming hp)
  · next d ds hp =>
    obtain ⟨hc, hs⟩ := Session.point_sending hp
    exact h.sendStep hc hs ha hrun'
  · next t ts hp =>
    obtain ⟨hc, hs, -⟩ := Session.point_working hp
    exact h.workStep hc hs ha hrun'
  · next pc hp =>
    obtain ⟨hc, hs, -, -⟩ := Session.point_loop hp
    exact h.loopStep hc hs ha hrun'

end Gtc.Wal
