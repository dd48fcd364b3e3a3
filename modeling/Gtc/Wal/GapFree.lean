/-
Gap-free delivery: the units reach the handler in the order they were
enqueued and none is passed over, and a watermark is reported delivered only
when every row returned for it was handled.

It holds as long as the queue has one reader. At teardown the deferred
function takes the queued units out while the delivery goroutine may still be
reading; when it takes one after a unit was dropped, the unit it hands over
has a gap before it (`gapFree_run` excludes that step, `drained_gap` runs it).
-/
import Gtc.Wal.Confirm

namespace Gtc.Wal

open Lib

variable {V : Type}

/-- The units enqueued so far, in order. -/
def enqueuedUnits (log : List (Entry V)) : List (Delivery V) :=
  log.filterMap fun
    | .enqueued d => some d
    | _ => none

/-- The units handled so far, in order. -/
def handledUnits (log : List (Entry V)) : List (Delivery V) :=
  log.filterMap fun
    | .handled d => some d
    | _ => none

/-- What an entry promises about the log before it. A unit is handed to the
handler when the units handled are exactly those enqueued before it; a
watermark is delivered when all its rows were in handled units. -/
def GapFree (pre : List (Entry V)) (x : Entry V) : Prop :=
  (∀ d, x = .handed d → handledUnits pre ++ [d] <+: enqueuedUnits pre) ∧
    ∀ w, x = .delivered w → ∀ ev ∈ w.rows, ∃ d, .handled d ∈ pre ∧ ev ∈ d.events

/-- A unit with a watermark ends the rows returned for it. -/
def RowsSent (pre : List (Delivery V)) (d : Delivery V) : Prop :=
  ∀ w, d.watermark = some w → ∀ ev ∈ w.rows, ∃ d' ∈ pre ++ [d], ev ∈ d'.events

/-- The unit taken and not handled. -/
def Worker.pending : Worker V → List (Delivery V)
  | .handling d | .failed d => [d]
  | _ => []

structure Ordered (s : Session V) : Prop where
  gapFree : Each GapFree s.log
  /-- Until the teardown drops a unit, each is handled, taken or queued. -/
  intact : (∀ d, .dropped d ∉ s.log) → handledUnits s.log ++ s.worker.pending ++ s.queue = enqueuedUnits s.log
  upTo : handledUnits s.log ++ s.worker.pending <+: enqueuedUnits s.log
  rows : Each RowsSent (enqueuedUnits s.log ++ s.sending)
  marking : ∀ d, s.worker = .marking d → ∃ hs, handledUnits s.log = hs ++ [d]

/-- The delivery goroutine takes no unit after one was dropped. -/
def OneReader (s : Session V) : Act V → Prop
  | .delivery _ => s.worker = .idle → s.queue ≠ [] → ∀ d, .dropped d ∉ s.log
  | .stream _ => True

/-! ## Steps -/

/-- The entry is about neither units nor watermarks. -/
def Entry.plain : Entry V → Bool
  | .decoded _ _ | .reported _ => true
  | _ => false

theorem each_before {α : Type} {P : List α → α → Prop} {a b : List α} (h : Each P (a ++ b)) : Each P a :=
  fun pre x post heq => h pre x (post ++ b) (by simp [heq])

section Steps

variable {s s' : Session V}

/-- A step that moves no unit. -/
theorem Ordered.frame (h : Ordered s) (new : List (Entry V)) (hnew : new = [] ∨ ∃ x, new = [x] ∧ x.plain = true)
    (hlog : s'.log = s.log ++ new) (hworker : s'.worker = s.worker) (hqueue : s'.queue = s.queue)
    (hrows : Each RowsSent (enqueuedUnits s.log ++ s'.sending)) : Ordered s' := by
  rcases hnew with rfl | ⟨x, rfl, hx⟩
  · rw [List.append_nil] at hlog
    exact {
      gapFree := hlog ▸ h.gapFree
      intact := by rw [hlog, hworker, hqueue]; exact h.intact
      upTo := by rw [hlog, hworker]; exact h.upTo
      rows := by rw [hlog]; exact hrows
      marking := by rw [hlog, hworker]; exact h.marking }
  · have henq : enqueuedUnits s'.log = enqueuedUnits s.log := by
      rw [hlog]
      cases x with
      | decoded | reported => simp [enqueuedUnits]
      | enqueued | dropped | handed | handled | delivered => cases hx
    have hhan : handledUnits s'.log = handledUnits s.log := by
      rw [hlog]
      cases x with
      | decoded | reported => simp [handledUnits]
      | enqueued | dropped | handed | handled | delivered => cases hx
    have hdrop : (∀ d, .dropped d ∉ s'.log) → ∀ d, .dropped d ∉ s.log := fun hno d hd =>
      hno d (hlog ▸ List.mem_append_left _ hd)
    exact {
      gapFree := by
        rw [hlog, each_concat]
        refine ⟨h.gapFree, ?_, ?_⟩ <;> intro _ heq <;> rw [heq] at hx <;> cases hx
      intact := by rw [henq, hhan, hworker, hqueue]; exact fun hno => h.intact (hdrop hno)
      upTo := by rw [henq, hhan, hworker]; exact h.upTo
      rows := by rw [henq]; exact hrows
      marking := by rw [hhan, hworker]; exact h.marking }

theorem Ordered.report (h : Ordered s) : Ordered s.report :=
  h.frame [.reported s.clientLSN] (.inr ⟨_, rfl, rfl⟩) rfl rfl rfl h.rows

theorem Ordered.teardown (h : Ordered s) : Ordered s.teardown :=
  h.frame [] (.inl rfl) (by simp [Session.teardown]) rfl rfl (by simpa [Session.teardown] using each_before h.rows)

/-- A batch carries no watermark. -/
theorem Ordered.flush (h : Ordered s) : Ordered s.flush := by
  unfold Session.flush
  split
  · exact h
  · refine h.frame [] (.inl rfl) (by simp) rfl rfl (each_concat.mpr ⟨each_before h.rows, ?_⟩)
    intro w hw
    cases hw

theorem Ordered.appendEvent (h : Ordered s) (maxBatch : ℕ) (e : Event V) :
    Ordered (s.appendEvent maxBatch e) := by
  have happ : Ordered { s with batch := s.batch ++ [e] } := { h with }
  unfold Session.appendEvent
  dsimp only
  split
  · exact happ.flush
  · exact happ

/-- **The rows of a watermark, cut into units**: every one of them is in a unit
up to the last, which carries the watermark. -/
theorem watermarkUnits_rowsSent {maxBatch : ℕ} {w : Watermark V} :
    ∀ (fuel : ℕ) (rows : List (Event V)) (pre : List (Delivery V)), Each RowsSent pre →
      (∀ ev ∈ w.rows, ev ∈ rows ∨ ∃ d ∈ pre, ev ∈ d.events) →
      Each RowsSent (pre ++ Session.watermarkUnits maxBatch w fuel rows) := by
  have hlast : ∀ (rows : List (Event V)) (pre : List (Delivery V)), Each RowsSent pre →
      (∀ ev ∈ w.rows, ev ∈ rows ∨ ∃ d ∈ pre, ev ∈ d.events) →
      Each RowsSent (pre ++ [{ events := rows, watermark := some w }]) := by
    intro rows pre hpre hrows
    refine each_concat.mpr ⟨hpre, fun w' hw ev hev => ?_⟩
    cases hw
    rcases hrows ev hev with hin | ⟨d, hd, hin⟩
    · exact ⟨_, List.mem_append_right _ (List.mem_singleton.mpr rfl), hin⟩
    · exact ⟨d, List.mem_append_left _ hd, hin⟩
  intro fuel
  induction fuel with
  | zero => intro rows pre hpre hrows; exact hlast rows pre hpre hrows
  | succ fuel ih =>
    intro rows pre hpre hrows
    unfold Session.watermarkUnits
    split
    · exact hlast rows pre hpre hrows
    · have hcut : Each RowsSent (pre ++ [{ events := rows.take maxBatch }]) :=
        each_concat.mpr ⟨hpre, fun w hw => (by cases hw)⟩
      have hnext := ih (rows.drop maxBatch) _ hcut fun ev hev => ?_
      · simpa using hnext
      · rcases hrows ev hev with hin | ⟨d, hd, hin⟩
        · rw [← List.take_append_drop maxBatch rows, List.mem_append] at hin
          rcases hin with hin | hin
          · exact .inr ⟨_, List.mem_append_right _ (List.mem_singleton.mpr rfl), hin⟩
          · exact .inl hin
        · exact .inr ⟨d, List.mem_append_left _ hd, hin⟩

theorem Ordered.sendStep (h : Ordered s) {d : Delivery V} {ds : List (Delivery V)} (hs : s.sending = d :: ds)
    {a : StreamAct V} (ha : Wal.sendStep s d ds a = some s') : Ordered s' := by
  unfold Wal.sendStep at ha
  split at ha
  · split at ha
    · split at ha
      · cases ha
        have henq : enqueuedUnits (s.log ++ [Entry.enqueued d]) = enqueuedUnits s.log ++ [d] := by simp [enqueuedUnits]
        have hhan : handledUnits (s.log ++ [Entry.enqueued d]) = handledUnits s.log := by simp [handledUnits]
        have hrows := h.rows
        rw [hs] at hrows
        exact {
          gapFree := each_concat.mpr ⟨h.gapFree, (by simp), (by simp)⟩
          intact := fun hno => by
            rw [henq, hhan, ← h.intact fun d' hd' => hno d' (List.mem_append_left _ hd'), List.append_assoc _ s.queue]
          upTo := by rw [henq, hhan]; exact h.upTo.trans (List.prefix_append _ _)
          rows := by rw [henq]; simpa using hrows
          marking := by rw [hhan]; exact h.marking }
      · cases ha
    · cases ha; exact { h with }
  · split at ha
    · cases ha; exact h.report
    · cases ha
  · split at ha
    · cases ha; exact h.teardown
    · cases ha
  · cases ha

theorem Ordered.workStep {cfg : Config V} (h : Ordered s) {t : Task V} {ts : List (Task V)}
    {a : StreamAct V} (ha : Wal.workStep cfg s t ts a = some s') : Ordered s' := by
  have hpop : Ordered { s with work := ts } := { h with }
  unfold Wal.workStep at ha
  split at ha
  · split at ha
    · cases ha; exact hpop.appendEvent _ _
    · split at ha
      · cases ha
      · cases ha; exact h.flush
    · cases ha; exact { h with }
    · cases ha
  · split at ha
    · dsimp only at ha
      split at ha
      · cases ha
        refine h.frame [] (.inl rfl) (by simp) rfl rfl (watermarkUnits_rowsSent _ _ _ (each_before h.rows) ?_)
        exact fun ev hev => .inl hev
      · cases ha
    · cases ha
  · split at ha
    · cases ha; exact hpop.report
    · cases ha
  · split at ha
    · cases ha; exact h.report.teardown
    · cases ha
  · cases ha

theorem Ordered.receiveStep (cfg : Config V) (h : Ordered s) (m : BackendMessage) :
    Ordered (Wal.receiveStep cfg s m) := by
  have hnext : Ordered { s with received := s.received + 1, pc := .check } := { h with }
  unfold Wal.receiveStep
  dsimp only
  split
  · exact hnext.teardown
  · split
    · exact hnext.teardown
    · exact h.frame [_] (.inr ⟨_, rfl, rfl⟩) rfl rfl rfl h.rows

theorem Ordered.loopStep {cfg : Config V} {stream : List BackendMessage} (h : Ordered s) {pc : LoopPoint}
    {a : StreamAct V} (ha : Wal.loopStep cfg stream s pc a = some s') : Ordered s' := by
  unfold Wal.loopStep at ha
  split at ha
  · split at ha
    · cases ha
    · cases ha; exact { h with }
  · cases ha; exact h.teardown
  · cases ha; exact Ordered.flush (s := { s with pc := .idle }) { h with }
  · cases ha; exact { h with }
  · split at ha <;> cases ha <;> exact { h with }
  · cases ha; exact Ordered.report (s := { s with pc := .receive }) { h with }
  · cases ha; exact { h with }
  · cases ha; exact h.report.teardown
  · obtain ⟨m, -, rfl⟩ := Option.map_eq_some_iff.mp ha
    exact h.receiveStep cfg m
  · cases ha; exact { h with }
  · cases ha; exact h.teardown
  · cases ha

theorem Ordered.teardownStep (h : Ordered s) (ha : Wal.teardownStep s = some s') : Ordered s' := by
  unfold Wal.teardownStep at ha
  split at ha
  · split at ha
    · next d queue hq =>
      cases ha
      have henq : enqueuedUnits (s.log ++ [Entry.dropped d]) = enqueuedUnits s.log := by simp [enqueuedUnits]
      have hhan : handledUnits (s.log ++ [Entry.dropped d]) = handledUnits s.log := by simp [handledUnits]
      exact {
        gapFree := each_concat.mpr ⟨h.gapFree, (by simp), (by simp)⟩
        intact := fun hno => absurd (List.mem_append_right _ (List.mem_singleton.mpr rfl)) (hno d)
        upTo := by rw [henq, hhan]; exact h.upTo
        rows := by rw [henq]; exact h.rows
        marking := by rw [hhan]; exact h.marking }
    · cases ha; exact { h with }
  · split at ha
    · cases ha; exact { h with }
    · cases ha; exact { h with }
    · cases ha
  · cases ha

/-- A unit is handled: the first that was not. -/
theorem Ordered.handle (h : Ordered s) {d : Delivery V} {queue : List (Delivery V)}
    (hnext : handledUnits s.log ++ [d] <+: enqueuedUnits s.log)
    (hintact : (∀ d, .dropped d ∉ s.log) → handledUnits s.log ++ [d] ++ queue = enqueuedUnits s.log) :
    Ordered { s with queue, worker := .marking d, log := s.log ++ [Entry.handled d] } := by
  have henq : enqueuedUnits (s.log ++ [Entry.handled d]) = enqueuedUnits s.log := by simp [enqueuedUnits]
  have hhan : handledUnits (s.log ++ [Entry.handled d]) = handledUnits s.log ++ [d] := by simp [handledUnits]
  exact {
    gapFree := each_concat.mpr ⟨h.gapFree, (by simp), (by simp)⟩
    intact := fun hno => by
      rw [henq, hhan, ← hintact fun d' hd' => hno d' (List.mem_append_left _ hd')]
      simp [Worker.pending]
    upTo := by rw [henq, hhan]; simpa [Worker.pending] using hnext
    rows := by rw [henq]; exact h.rows
    marking := fun d' hd' => (by cases hd'; exact ⟨_, hhan⟩) }

/-- The delivery goroutine goes on with a unit already handled. -/
theorem Ordered.withWorker (h : Ordered s) {w : Worker V} (hold : s.worker.pending = []) (hnew : w.pending = [])
    (hmark : ∀ d, w ≠ .marking d) : Ordered { s with worker := w } :=
  { h with
    intact := by rw [hnew, ← hold]; exact h.intact
    upTo := by rw [hnew, ← hold]; exact h.upTo
    marking := fun d hd => absurd hd (hmark d) }

theorem mem_handledUnits {log : List (Entry V)} {d : Delivery V} (h : d ∈ handledUnits log) : .handled d ∈ log := by
  obtain ⟨x, hx, hd⟩ := List.mem_filterMap.mp h
  cases x with
  | handled d' => cases hd; exact hx
  | decoded | enqueued | dropped | handed | delivered | reported => cases hd

theorem Ordered.deliveryStep (h : Ordered s) {ok : Bool} (hone : OneReader s (.delivery ok))
    (ha : Wal.deliveryStep s ok = some s') : Ordered s' := by
  cases hw : s.worker with
  | idle =>
    simp only [Wal.deliveryStep, hw] at ha
    cases hq : s.queue with
    | nil =>
      simp only [hq] at ha
      split at ha <;> cases ha
      have hreturned := h.withWorker (w := .returned) (by simp [hw, Worker.pending]) rfl (by simp)
      rw [hq] at hreturned
      exact hreturned
    | cons d queue =>
      have hno := hone hw (by simp [hq])
      have hintact : handledUnits s.log ++ [d] ++ queue = enqueuedUnits s.log := by
        have := h.intact hno
        simpa [hw, hq, Worker.pending] using this
      have hnext : handledUnits s.log ++ [d] <+: enqueuedUnits s.log := ⟨queue, hintact⟩
      simp only [hq] at ha
      split at ha <;> cases ha
      · exact h.handle hnext fun _ => hintact
      · have henq : enqueuedUnits (s.log ++ [Entry.handed d]) = enqueuedUnits s.log := by simp [enqueuedUnits]
        have hhan : handledUnits (s.log ++ [Entry.handed d]) = handledUnits s.log := by simp [handledUnits]
        exact {
          gapFree := each_concat.mpr ⟨h.gapFree, fun d' hd' => (by cases hd'; exact hnext), (by simp)⟩
          intact := fun _ => by rw [henq, hhan]; exact hintact
          upTo := by rw [henq, hhan]; exact hnext
          rows := by rw [henq]; exact h.rows
          marking := fun d' hd' => (by cases hd') }
  | handling d =>
    simp only [Wal.deliveryStep, hw] at ha
    have hupTo := h.upTo
    have hintact := h.intact
    rw [hw] at hupTo hintact
    split at ha <;> cases ha
    · exact h.handle hupTo hintact
    · exact { h with
        intact := hintact
        upTo := hupTo
        marking := fun d' hd' => (by cases hd') }
  | marking d =>
    simp only [Wal.deliveryStep, hw] at ha
    cases ha
    have hloading := h.withWorker (w := .loading d) (by simp [hw, Worker.pending]) rfl (by simp)
    cases hmark : d.watermark with
    | none => simpa [hmark] using hloading
    | some w =>
      obtain ⟨hs, hhs⟩ := h.marking d hw
      obtain ⟨post, hpost⟩ := h.upTo
      -- The unit is the last one handled, so every unit up to it is.
      have hrows : ∀ ev ∈ w.rows, ∃ d', .handled d' ∈ s.log ∧ ev ∈ d'.events := by
        intro ev hev
        obtain ⟨d', hd', hin⟩ := each_before h.rows hs d post (by rw [← hpost, hhs, hw]; simp [Worker.pending]) w hmark ev hev
        exact ⟨d', mem_handledUnits (hhs ▸ hd'), hin⟩
      have henq : enqueuedUnits (s.log ++ [Entry.delivered w]) = enqueuedUnits s.log := by simp [enqueuedUnits]
      have hhan : handledUnits (s.log ++ [Entry.delivered w]) = handledUnits s.log := by simp [handledUnits]
      exact {
        gapFree := each_concat.mpr ⟨h.gapFree, (by simp), fun w' hw' => (by cases hw'; exact hrows)⟩
        intact := fun hno => by
          simp only [Option.map_some, Option.toList_some] at hno ⊢
          rw [henq, hhan]
          exact hloading.intact fun d' hd' => hno d' (List.mem_append_left _ hd')
        upTo := by
          simp only [Option.map_some, Option.toList_some]
          rw [henq, hhan]; exact hloading.upTo
        rows := by
          simp only [Option.map_some, Option.toList_some]
          rw [henq]; exact h.rows
        marking := fun d' hd' => (by cases hd') }
  | loading d =>
    simp only [Wal.deliveryStep, hw] at ha
    split at ha <;> cases ha
    · exact h.withWorker (by simp [hw, Worker.pending]) rfl (by simp)
    · exact h.withWorker (by simp [hw, Worker.pending]) rfl (by simp)
  | storing d =>
    simp only [Wal.deliveryStep, hw] at ha
    cases ha
    exact { h.withWorker (w := .finishing d) (by simp [hw, Worker.pending]) rfl (by simp) with }
  | finishing d =>
    simp only [Wal.deliveryStep, hw] at ha
    cases ha
    exact { h.withWorker (w := .idle) (by simp [hw, Worker.pending]) rfl (by simp) with }
  | failed d => simp [Wal.deliveryStep, hw] at ha
  | returned => simp [Wal.deliveryStep, hw] at ha

theorem Ordered.streamStep {cfg : Config V} {stream : List BackendMessage} (h : Ordered s) {a : StreamAct V}
    (ha : Wal.streamStep cfg stream s a = some s') : Ordered s' := by
  unfold Wal.streamStep at ha
  split at ha
  · split at ha
    · next c hp => cases ha; cases c <;> exact { h with }
    · next d ds hp => exact h.sendStep (Session.point_sending hp).2 ha
    · exact h.workStep ha
    · exact h.loopStep ha
  · exact h.teardownStep ha

end Steps

theorem ordered_start (startLSN : LSN) (decoder : Decoder) : Ordered (start startLSN decoder : Session V) where
  gapFree := Each.nil _
  intact _ := rfl
  upTo := List.prefix_refl _
  rows := Each.nil _
  marking d hd := by cases hd

/-- **Gap-free delivery.** In every run of a session, teardown included, in which
the delivery goroutine takes no unit after the teardown dropped one: a unit is
handed to the handler only when exactly the units enqueued before it have been
handled, and a watermark is reported delivered only when every row returned
for it was in a unit the handler had returned nil for. -/
theorem gapFree_run (cfg : Config V) (startLSN : LSN) (decoder : Decoder) (stream : List BackendMessage) (s : Session V)
    (hrun : Reaches (step cfg stream) OneReader (start startLSN decoder) s) :
    (∀ pre d post, s.log = pre ++ .handed d :: post → handledUnits pre ++ [d] <+: enqueuedUnits pre) ∧
      ∀ pre w post, s.log = pre ++ .delivered w :: post →
        ∀ ev ∈ w.rows, ∃ d, .handled d ∈ pre ∧ ev ∈ d.events := by
  have hord : Ordered s := by
    refine hrun.invariant (fun t a u h hone ha => ?_) (ordered_start startLSN decoder)
    cases a with
    | stream a => exact h.streamStep ha
    | delivery ok => exact h.deliveryStep hone ha
  exact ⟨fun pre d post hlog => (hord.gapFree pre _ post hlog).1 d rfl,
    fun pre w post hlog => (hord.gapFree pre _ post hlog).2 w rfl⟩

/-! ## Sessions that drop nothing -/

theorem Unreported.prefix {log log' : List (Entry V)} (h : Unreported log log') : log <+: log' := by
  rcases h with rfl | ⟨x, rfl, -⟩
  · exact List.prefix_refl _
  · exact List.prefix_append _ _

theorem Reporting.prefix {s s' : Session V} (h : Reporting s s') : s.log <+: s'.log := by
  rcases h.2 with hlog | hlog
  · exact Unreported.prefix hlog
  · rw [hlog]; exact List.prefix_append _ _

/-- Nothing is ever taken back from the log. -/
theorem step_log_grows {cfg : Config V} {stream : List BackendMessage} {s s' : Session V} {a : Act V}
    (ha : step cfg stream s a = some s') : s.log <+: s'.log := by
  cases a with
  | delivery ok => exact Unreported.prefix (deliveryStep_log ha)
  | stream a =>
    simp only [step, streamStep] at ha
    split at ha
    · split at ha
      · next c _ => cases ha; cases c <;> exact List.prefix_refl _
      · exact Reporting.prefix (sendStep_reporting ha)
      · exact Reporting.prefix (workStep_reporting ha)
      · exact Reporting.prefix (loopStep_reporting ha)
    · exact Unreported.prefix (teardownStep_log ha)

/-- A run that has dropped nothing had one reader all along. -/
theorem oneReader_of_intact {cfg : Config V} {stream : List BackendMessage} {s₀ s : Session V}
    (hrun : Reaches (step cfg stream) (fun _ _ => True) s₀ s) (hno : ∀ d, .dropped d ∉ s.log) :
    Reaches (step cfg stream) OneReader s₀ s := by
  induction hrun with
  | refl => exact .refl
  | @tail t u a _ _ ha ih =>
    have hno' : ∀ d, .dropped d ∉ t.log := fun d hd => hno d ((step_log_grows ha).subset hd)
    refine .tail (ih hno') ?_ ha
    cases a with
    | stream a => trivial
    | delivery ok => exact fun _ _ => hno'

/-- A backfill watermark, alone in the stream. -/
def oneWatermark : List BackendMessage := [.xLogData 9 9 (.message watermarkPrefix [1] 9)]

/-- It is received, and the controller returns three rows for it, which go into
three units. -/
def threeRows : List (Act Unit) :=
  let go : Act Unit := .stream .go
  [go, .stream .skip, go, .stream .skip, go, .stream (.rows [bareEvent "a", bareEvent "b", bareEvent "c"])]

/-- The delivery goroutine handles the unit it has taken, to the end. -/
def handleTaken : List (Act Unit) := List.replicate 4 (.delivery true)

/-- All three are enqueued and handled. -/
def deliveredRun : List (Act Unit) :=
  let enqueue : List (Act Unit) := [.stream .go, .stream .go]
  let take : Act Unit := .delivery true
  threeRows ++ enqueue ++ [take] ++ handleTaken ++ enqueue ++ [take] ++ handleTaken ++ enqueue ++ [take] ++ handleTaken

def Entry.isDropped : Entry V → Bool
  | .dropped _ => true
  | _ => false

theorem gapFree_run_rows :
    ∃ s w, runSteps (step (unitConfig 1) oneWatermark) (start 0 newDecoder) deliveredRun = some s ∧
      s.log = s.log.dropLast ++ [.delivered w] ∧ w.rows.length = 3 ∧
      ∀ ev ∈ w.rows, ∃ d, .handled d ∈ s.log.dropLast ∧ ev ∈ d.events := by
  refine ⟨_, _, rfl, rfl, rfl, ?_⟩
  have hrun := @reaches_of_runSteps _ _ (step (unitConfig 1) oneWatermark) deliveredRun (start 0 newDecoder) _ rfl
  refine (gapFree_run (unitConfig 1) 0 newDecoder oneWatermark _ (oneReader_of_intact hrun ?_)).2 _ _ [] rfl
  intro d hd
  exact absurd (List.any_eq_true.mpr ⟨_, hd, rfl⟩ : List.any _ Entry.isDropped = true) (by decide)

/-- The first unit is being handled when the loop is told to stop. The drain
drops the second; the third is taken before the drain gets to it. -/
def drainedRun : List (Act Unit) :=
  let enqueue : List (Act Unit) := [.stream .go, .stream .go]
  let take : Act Unit := .delivery true
  threeRows ++ enqueue ++ [take] ++ enqueue ++ enqueue ++ [.stream .go, .stream .stop, .stream .go] ++ handleTaken ++
    [take, .delivery true, .delivery true]

def row (id : String) (i : ℕ) : Event Unit := { event := bareEvent id, origin := .backfill 0 i }

def threeRowsMark : Watermark Unit := { content := [1], rows := [row "a" 0, row "b" 1, row "c" 2] }

theorem drainedRun_log :
    (runSteps (step (unitConfig 1) oneWatermark) (start 0 newDecoder) drainedRun).map (·.log) = some
      [.decoded 0 [], .enqueued { events := [row "a" 0] }, .handed { events := [row "a" 0] },
        .enqueued { events := [row "b" 1] }, .enqueued { events := [row "c" 2], watermark := some threeRowsMark },
        .dropped { events := [row "b" 1] }, .handled { events := [row "a" 0] },
        .handed { events := [row "c" 2], watermark := some threeRowsMark },
        .handled { events := [row "c" 2], watermark := some threeRowsMark }, .delivered threeRowsMark] := by
  rfl

/-- The third row is handed over past the second, and the watermark of all
three is reported delivered. -/
theorem drained_gap :
    ∃ s, Reaches (step (unitConfig 1) oneWatermark) (fun _ _ => True) (start 0 newDecoder) s ∧
      (∃ pre d post, s.log = pre ++ .handed d :: post ∧ ¬ handledUnits pre ++ [d] <+: enqueuedUnits pre) ∧
      ∃ pre w post, s.log = pre ++ .delivered w :: post ∧
        ∃ ev ∈ w.rows, ∀ d, .handled d ∈ pre → ev ∉ d.events := by
  obtain ⟨s, hs, hlog⟩ := Option.map_eq_some_iff.mp drainedRun_log
  refine ⟨s, reaches_of_runSteps hs, ⟨s.log.take 7, _, _, by rw [hlog]; rfl, ?_⟩,
    s.log.take 9, threeRowsMark, [], by rw [hlog]; rfl, row "b" 1, by decide, fun d hd hev => ?_⟩
  · rw [hlog]; decide
  · have hmem : row "b" 1 ∈ handledEvents (s.log.take 9) := List.mem_flatMap.mpr ⟨_, hd, hev⟩
    rw [hlog] at hmem
    exact absurd hmem (by decide)

end Gtc.Wal
