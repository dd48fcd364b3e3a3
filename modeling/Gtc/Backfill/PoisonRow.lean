/-
A row that its sink refuses, backfilled again and again.

`Feed` is one process from the log to the sink: the coordinator and its calls,
the batch that `streamLoop` has open, the queue to the delivery goroutine, and
the dead-letter sink at its end. A delivery that fails tears the stream down,
and what the coordinator does then is up to it.

The READ events of a chunk carry the chunk's id, and a chunk that is emitted
again is a new chunk. So the failures of one row are counted against a new
event each time, and no count passes one.
-/
import Gtc.Backfill.Brackets
import Gtc.Sink.Cycles
import Gtc.Wal.Session

namespace Gtc.Backfill

open Lib

variable {V : Type}

/-! ## From the log to the sink -/

/-- What the delivery goroutine takes from its queue at once: a batch of live
events, or all deliveries of a watermark's rows. -/
structure FeedUnit (V : Type) where
  batches : List (List (CDCEvent V))
  watermark : Option (Option WatermarkPayload) := none
  /-- Nothing reads it: the chunk whose rows these are. -/
  chunk : Option ℕ := none

def FeedUnit.events (u : FeedUnit V) : List (CDCEvent V) := u.batches.flatten

structure Feed (V : Type) where
  system : System V
  /-- The batch that is open. -/
  batch : List (CDCEvent V) := []
  queue : List (FeedUnit V) := []
  bench : Bench V := {}
  /-- The calls of `WatermarkDelivered`. -/
  reported : List (Option WatermarkPayload) := []
  /-- Nothing reads it: the units with poison in them that were delivered, or
  failed to be. -/
  attempts : List (FeedUnit V) := []

structure FeedConfig (V : Type) where
  reader : Wal.Config V
  /-- `ManagerParams.Threshold`. -/
  threshold : Int
  sink : String
  env : BenchEnv V

/-- The deliveries of a watermark's rows: at most `maxBatch` each. `fuel` covers
the rows. -/
def rowBatches (maxBatch : ℕ) : ℕ → List (CDCEvent V) → List (List (CDCEvent V))
  | 0, rows => [rows]
  | fuel + 1, rows =>
    if rows.length ≤ maxBatch then [rows] else rows.take maxBatch :: rowBatches maxBatch fuel (rows.drop maxBatch)

inductive FeedAct (V : Type) where
  /-- The database, the lanes, or the start of a session. -/
  | system (a : SystemAct V)
  | take (lsn : String) (now : ℕ)
  /-- The open batch has lingered. -/
  | flush
  /-- The delivery goroutine takes the next unit. -/
  | deliver
  | down

namespace Feed

variable (cfg : FeedConfig V) (poison : CDCEvent V → Bool) (s : Feed V)

def flush : Feed V := if s.batch = [] then s else { s with queue := s.queue ++ [{ batches := [s.batch] }], batch := [] }

/-- What `enqueue` gets for a watermark: the rows it returns. -/
def watermarkUnit (p : Process V) (lsn : String) (now : ℕ) (content : Option WatermarkPayload) : FeedUnit V :=
  let rows := (p.coordinator.handleWatermark lsn now content).1
  { batches := rowBatches cfg.reader.maxBatch rows.length rows
    watermark := some content
    chunk := if rows = [] then none else p.highChunk content }

/-- The loop body for one log entry, the coordinator's part apart. -/
def collect (lsn : String) (now : ℕ) : Item V → Feed V
  | .change event =>
    let s := { s with batch := s.batch ++ [event] }
    if s.batch.length ≥ cfg.reader.maxBatch then s.flush else s
  | .commit => s
  | .mark content => { s.flush with queue := s.flush.queue ++ [watermarkUnit cfg s.system.process lsn now content] }

/-- The unit was handled: its watermark is reported delivered. -/
def handled (u : FeedUnit V) : Feed V :=
  match u.watermark, s.system.process.stream with
  | some content, some stream =>
    { s with
      system :=
        { history := s.system.process.report s.system.history content
          process := s.system.process.delivered stream 0 content }
      reported := s.reported ++ [content] }
  | _, _ => s

/-- What the lanes, the database and the start of a session do. -/
def isOther : SystemAct V → Bool
  | .process (.take _ _) | .process (.delivered _) | .process .down => false
  | _ => true

end Feed

namespace Feed

variable [ToString V] (cfg : FeedConfig V) (poison : CDCEvent V → Bool) (s : Feed V)

/-- The stream goes down, and what was not delivered with it. -/
def teardown : Option (Feed V) := do
  let system ← s.system.step (.process .down)
  return { s with system, batch := [], queue := [] }

/-- One unit goes through the sink. -/
def deliver (u : FeedUnit V) (rest : List (FeedUnit V)) : Option (Feed V) :=
  let (result, bench) :=
    s.bench.exec (newManagerThreshold cfg.threshold) cfg.env (deliverBatches (benchSink cfg.sink) u.batches)
  let s := { s with bench, queue := rest, attempts := s.attempts ++ if u.events.any poison then [u] else [] }
  match result with
  | none => some (s.handled u)
  | some _ => s.teardown

def step : FeedAct V → Option (Feed V)
  | .system a => if isOther a then (s.system.step a).map fun system => { s with system } else none
  | .take lsn now => do
    let stream ← s.system.process.stream
    let item ← s.system.history.wal[stream.pos]?
    let system ← s.system.step (.process (.take lsn now))
    return { s.collect cfg lsn now item with system }
  | .flush => some s.flush
  | .deliver =>
    match s.queue with
    | [] => none
    | u :: rest => s.deliver cfg poison u rest
  | .down => s.teardown

end Feed

/-- No READ event comes from the log. -/
def FeedAct.Live : FeedAct V → Prop
  | .system (.commit events) => ∀ e ∈ events, e.operation ≠ .read
  | _ => True

/-- A process that has just started. -/
def startFeed (cfg : Config) (instanceID : String) : Feed V := { system := { process := newProcess cfg instanceID } }

/-! ## The rows of a chunk come once -/

/-- The call has not published its rows yet. -/
def Stage.early : Stage → Bool
  | .low | .select | .publish => true
  | _ => false

/-- Rows are returned for the high watermark of a chunk in flight only. -/
theorem Coordinator.handleWatermark_ne_nil {c : Coordinator V} (hv : c.Valid) {lsn : String} {now : ℕ}
    {content : Option WatermarkPayload} (h : (c.handleWatermark lsn now content).1 ≠ []) :
    ∃ i ∈ c.inflight, content = some ⟨c.cfg.slotName, (c.chunks i).id, "high"⟩ := by
  unfold handleWatermark at h
  split at h
  · exact absurd rfl h
  · rename_i payload
    split at h
    · exact absurd rfl h
    · rename_i hslot
      split at h
      · exact absurd rfl h
      · rename_i i hi
        obtain ⟨hmem, hid⟩ := (lookup_eq_some hv).mp hi
        simp only at h
        split at h
        · exact absurd rfl h
        · split at h
          · rename_i hmark
            refine ⟨i, hmem, ?_⟩
            rw [hid, ← hmark, ← not_not.mp hslot]
          · exact absurd rfl h

namespace Process

/-- The chunk has no rows to emit, and gets none. -/
structure Spent (p : Process V) (i : ℕ) : Prop where
  registered : p.coordinator.Registered i
  pending : (p.chunk i).pending = []
  early : (p.calls i).stage.early = false

structure Tidy (p : Process V) : Prop where
  valid : p.coordinator.Valid
  early : ∀ i, (p.calls i).stage.early = true → p.coordinator.Registered i ∧ (p.chunk i).pending = []

/-- What may become of a chunk's rows. -/
inductive Turn (p p' : Process V) (i : ℕ) : Prop
  | new (hnew : ¬ p.coordinator.Registered i) (hreg : p'.coordinator.Registered i) (hrows : (p'.chunk i).pending = [])
  | kept (hrows : (p'.chunk i).pending = (p.chunk i).pending ∨ (p'.chunk i).pending = [])
    (hearly : (p'.calls i).stage.early = true → (p.calls i).stage.early = true)
  | published (hearly : (p.calls i).stage.early = true) (hlate : (p'.calls i).stage.early = false)

/-- What a step does to all chunks. -/
structure Turns (p p' : Process V) : Prop where
  valid : p.coordinator.Valid → p'.coordinator.Valid
  chunkSeq : p.coordinator.chunkSeq ≤ p'.coordinator.chunkSeq
  instanceID : p'.coordinator.instanceID = p.coordinator.instanceID
  turn : ∀ i, Turn p p' i

theorem Turns.of_evolves {p p' : Process V} (he : p.coordinator.Evolves p'.coordinator) (hturn : ∀ i, Turn p p' i) : Turns p p' where
  valid h := h.evolves he
  chunkSeq := he.chunkSeq.ge
  instanceID := he.instanceID
  turn := hturn

theorem Turns.refl (p : Process V) : Turns p p := .of_evolves (.refl _) fun _ => .kept (.inl rfl) id

/-- Only the call changes. -/
theorem setCall_turns {p : Process V} {i : ℕ} {call : Call V}
    (hcall : call.stage.early = true → (p.calls i).stage.early = true) : Turns p (p.setCall i call) := by
  refine .of_evolves (.refl _) fun j => .kept (.inl rfl) fun hearly => ?_
  by_cases hji : j = i
  · subst hji
    exact hcall (by simpa [setCall] using hearly)
  · simpa [setCall, hji] using hearly

theorem handleWatermark_pending {c : Coordinator V} {lsn : String} {now : ℕ} {content : Option WatermarkPayload} (i : ℕ) :
    ((c.handleWatermark lsn now content).2.chunks i).pending = (c.chunks i).pending ∨
      ((c.handleWatermark lsn now content).2.chunks i).pending = [] := by
  unfold Coordinator.handleWatermark
  repeat' split
  · exact .inl rfl
  · exact .inl rfl
  · exact .inl rfl
  · rename_i j _ _
    refine .inl ?_
    by_cases hij : i = j
    · simp [Coordinator.setChunk, hij]
    · simp [Coordinator.setChunk, hij]
  · rename_i j _ _ _
    by_cases hij : i = j
    · exact .inr (by simp [Coordinator.setChunk, hij])
    · exact .inl (by simp [Coordinator.setChunk, hij])
  · exact .inl rfl

theorem handleWatermark_stage (p : Process V) (stream : Stream V) (lsn : String) (now : ℕ) (content : Option WatermarkPayload) (i : ℕ) :
    ((p.handleWatermark stream lsn now content).calls i).stage = (p.calls i).stage := by
  simp only [handleWatermark]
  cases p.highChunk content with
  | none => rfl
  | some j =>
    by_cases hij : i = j
    · subst hij
      simp
    · simp [hij]

/-- A watermark for which rows are returned is the high one of a chunk that had
them to emit; it has none after that. -/
theorem handleWatermark_rows {p : Process V} (hp : p.Tidy) (stream : Stream V) {lsn : String} {now : ℕ}
    {content : Option WatermarkPayload} (hrows : (p.coordinator.handleWatermark lsn now content).1 ≠ []) :
    ∃ i, p.highChunk content = some i ∧ ¬ p.Spent i ∧ (p.handleWatermark stream lsn now content).Spent i ∧
      ∀ e ∈ (p.coordinator.handleWatermark lsn now content).1,
        ∃ row, e = readEvent lsn now (chunkID p.coordinator.instanceID (p.chunk i).table i) (p.chunk i).table row := by
  obtain ⟨i, hi, rfl⟩ := Coordinator.handleWatermark_ne_nil hp.valid hrows
  have hhigh := Coordinator.handleWatermark_high hp.valid hi lsn now
  have hreg := hp.valid.inflight i hi
  have hpending : (p.chunk i).pending ≠ [] := by
    intro hempty
    refine hrows ?_
    rw [hhigh]
    simp [Coordinator.unseen, show (p.coordinator.chunks i).pending = [] from hempty]
  refine ⟨i, ?_, fun hspent => hpending hspent.pending, ⟨?_, ?_, ?_⟩, fun e he => ?_⟩
  · simp [highChunk, (Coordinator.lookup_eq_some hp.valid).mpr ⟨hi, rfl⟩]
  · have he := p.coordinator.handleWatermark_evolves lsn now (some ⟨p.coordinator.cfg.slotName, (p.coordinator.chunks i).id, "high"⟩)
    exact hreg.evolves he
  · simp only [handleWatermark, chunk, hhigh]
    simp [Coordinator.setChunk]
  · rw [handleWatermark_stage]
    cases hearly : (p.calls i).stage.early with
    | false => rfl
    | true => exact absurd (hp.early i hearly).2 hpending
  · rw [hhigh] at he
    obtain ⟨row, -, rfl⟩ := List.mem_map.mp he
    exact ⟨row, congrArg (readEvent lsn now · _ row) (hp.valid.id i hreg)⟩

theorem delivered_turns (p : Process V) (stream : Stream V) (n : ℕ) (content : Option WatermarkPayload) :
    Turns p (p.delivered stream n content) := by
  refine .of_evolves (Coordinator.watermarkDelivered_evolves _ _) fun i => .kept (.inl ?_) id
  obtain ⟨done, hdone⟩ := p.coordinator.watermarkDelivered_frame content i
  simp [delivered, chunk, hdone]

variable [ToString V]

theorem take_turns (p : Process V) (stream : Stream V) (lsn : String) (now : ℕ) (item : Item V) :
    Turns p (p.take stream lsn now item) := by
  cases item with
  | change event =>
    refine .of_evolves (Coordinator.observeEvent_evolves _ _) fun i => .kept (.inl ?_) id
    obtain ⟨seen, hseen⟩ := @Coordinator.observe_frame V event _ none p.coordinator.inflight p.coordinator.chunks i
    simp [take, chunk, Coordinator.observeEvent, hseen]
  | commit => exact .of_evolves (.refl _) fun _ => .kept (.inl rfl) id
  | mark content =>
    refine .of_evolves (Coordinator.handleWatermark_evolves _ _ _ _) fun i => .kept (handleWatermark_pending i) fun hearly => ?_
    rw [take, handleWatermark_stage] at hearly
    exact hearly

theorem step_turns {h h' : History V} {p p' : Process V} {a : ProcessAct V} (hstep : p.step h a = some (h', p')) : Turns p p' := by
  cases steps_of_step hstep with
  | @register lane ref pkCols cursor =>
    refine ⟨fun hv => Coordinator.register_valid hv ref pkCols, Nat.le_succ _, rfl, fun i => ?_⟩
    by_cases hi : i = p.coordinator.chunkSeq + 1
    · subst hi
      refine .new (fun hreg => absurd hreg.1 (by omega)) ⟨Nat.le_refl _, Nat.succ_pos _⟩ ?_
      simp [register, chunk, Coordinator.register]
    · refine .kept (.inl ?_) ?_
      · simp [register, chunk, Coordinator.register, hi]
      · simp [register, Coordinator.register, hi]
  | emitLow hstage => exact setCall_turns fun _ => by simp [hstage, Stage.early]
  | select hstage =>
    rename_i i answer
    cases answer with
    | none => exact setCall_turns fun _ => by simp [hstage, Stage.early]
    | some selection => exact setCall_turns fun _ => by simp [hstage, Stage.early]
  | @publish i s selected hstage hsel =>
    refine .of_evolves (Coordinator.publish_evolves _ _ _) fun j => ?_
    by_cases hji : j = i
    · subst hji
      refine .published (by simp [hstage, Stage.early]) ?_
      simp only [publish, setCall, Function.update_self]
      split <;> rfl
    · refine .kept (.inl ?_) ?_
      · simp [publish, setCall, chunk, Coordinator.publish_of_ne, hji]
      · simp [publish, setCall, hji]
  | emitHigh hstage =>
    refine setCall_turns fun hearly => absurd hearly ?_
    split <;> simp [Stage.early]
  | @fail i hstage =>
    refine .of_evolves (Coordinator.abandon_evolves _ _) fun j => .kept (.inl ?_) ?_
    · simp [fail, setCall, chunk, Coordinator.abandon_eq]
    · by_cases hji : j = i
      · subst hji
        simp [fail, setCall, Stage.early]
      · simp [fail, setCall, hji]
  | abandon => exact .of_evolves (Coordinator.abandon_evolves _ _) fun j => .kept (.inl (by simp [chunk, Coordinator.abandon_eq])) id
  | up =>
    obtain ⟨he, hchunks, -⟩ := p.coordinator.onStreamStart_spec
    exact .of_evolves he fun j => .kept (.inl (by simp [chunk, hchunks])) id
  | down =>
    obtain ⟨he, hchunks, -⟩ := p.coordinator.onStreamStop_spec
    exact .of_evolves he fun j => .kept (.inl (by simp [chunk, hchunks])) id
  | @take _ _ stream item => exact take_turns p stream _ _ item
  | @delivered n stream content => exact delivered_turns p stream n content

omit [ToString V] in
theorem Spent.turns {p p' : Process V} {i : ℕ} (hs : p.Spent i) (ht : Turns p p') : p'.Spent i := by
  have hreg : p'.coordinator.Registered i := ⟨hs.registered.1.trans ht.chunkSeq, hs.registered.2⟩
  cases ht.turn i with
  | new hnew => exact absurd hs.registered hnew
  | kept hrows hearly =>
    refine ⟨hreg, ?_, ?_⟩
    · rcases hrows with hrows | hrows
      · exact hrows.trans hs.pending
      · exact hrows
    · cases hstage : (p'.calls i).stage.early with
      | false => rfl
      | true => exact absurd (hearly hstage) (by simp [hs.early])
  | published hearly => exact absurd hearly (by simp [hs.early])

omit [ToString V] in
theorem Tidy.turns {p p' : Process V} (hp : p.Tidy) (ht : Turns p p') : p'.Tidy where
  valid := ht.valid hp.valid
  early i hstage := by
    cases ht.turn i with
    | new hnew hreg hrows => exact ⟨hreg, hrows⟩
    | kept hrows hearly =>
      obtain ⟨hreg, hpending⟩ := hp.early i (hearly hstage)
      refine ⟨⟨hreg.1.trans ht.chunkSeq, hreg.2⟩, ?_⟩
      rcases hrows with hrows | hrows
      · exact hrows.trans hpending
      · exact hrows
    | published hearly hlate => exact absurd hstage (by simp [hlate])

theorem step_stream {h h' : History V} {p p' : Process V} {a : ProcessAct V} (hstep : p.step h a = some (h', p'))
    (hdown : a ≠ .down) (hstream : p.stream.isSome = true) : p'.stream.isSome = true := by
  cases steps_of_step hstep with
  | select =>
    rename_i answer _
    cases answer <;> exact hstream
  | down => exact absurd rfl hdown
  | @take _ _ _ item => cases item <;> rfl
  | up => rfl
  | delivered => rfl
  | _ => exact hstream

end Process

/-! ## What is in the queue -/

/-- The id of a READ event. -/
def readID (instanceID : String) (ref : TableRef) (i : ℕ) (key : String) : String := "bf:" ++ chunkID instanceID ref i ++ ":" ++ key

theorem readID_seq_inj {inst : String} {ref : TableRef} {i j : ℕ} {key key' : String}
    (h : readID inst ref i key = readID inst ref j key') : i = j := by
  have htext := congrArg String.toList h
  have hcolon : ∀ n, ':' ∉ Nat.toDigits 10 n := fun n hmem =>
    absurd (Nat.isDigit_of_mem_toDigits (by decide) (by decide) hmem) (by decide)
  simp only [readID, String.toList_append, toList_chunkID, List.append_assoc, List.append_cancel_left_eq, List.cons_append,
    List.cons.injEq, true_and] at htext
  have hdigits := (append_cons_inj_of_notMem (hcolon i) (hcolon j) htext).1
  rw [← @Nat.ofDigitChars_ten_toDigits i, hdigits, Nat.ofDigitChars_ten_toDigits]

/-- A unit holds live events, or the rows of one chunk with its watermark. -/
def FeedUnit.Sorted (instanceID : String) (u : FeedUnit V) : Prop :=
  (∀ e ∈ u.events, e.operation ≠ .read) ∨
    ∃ i ref content, u.chunk = some i ∧ u.watermark = some content ∧ [] ∉ u.batches ∧
      ∀ e ∈ u.events, eventRef e = ref ∧ ∃ key, e.id = readID instanceID ref i key

structure Feed.Sorted (instanceID : String) (s : Feed V) : Prop where
  tidy : s.system.process.Tidy
  own : s.system.process.coordinator.instanceID = instanceID
  wal : ∀ e ∈ changes s.system.history.wal, e.operation ≠ .read
  batch : ∀ e ∈ s.batch, e.operation ≠ .read
  queue : ∀ u ∈ s.queue, u.Sorted instanceID
  stream : s.system.process.stream.isSome = true ∨ s.batch = [] ∧ s.queue = []

theorem maxBatch_pos (cfg : Wal.Config V) : 0 < cfg.maxBatch := by
  simp only [Wal.Config.maxBatch, Wal.defaultMaxBatchEvents]
  split <;> omega

theorem rowBatches_flatten (maxBatch : ℕ) : ∀ (fuel : ℕ) (rows : List (CDCEvent V)), (rowBatches maxBatch fuel rows).flatten = rows := by
  intro fuel
  induction fuel with
  | zero => simp [rowBatches]
  | succ fuel ih =>
    intro rows
    rw [rowBatches]
    split
    · simp
    · rw [List.flatten_cons, ih, List.take_append_drop]

theorem rowBatches_nonempty {maxBatch : ℕ} (hpos : 0 < maxBatch) :
    ∀ (fuel : ℕ) {rows : List (CDCEvent V)}, rows ≠ [] → [] ∉ rowBatches maxBatch fuel rows := by
  intro fuel
  induction fuel with
  | zero => intro rows hne; simpa [rowBatches] using hne.symm
  | succ fuel ih =>
    intro rows hne
    rw [rowBatches]
    split
    · simpa using hne.symm
    · rename_i hlong
      rw [List.mem_cons, not_or]
      refine ⟨fun hempty => ?_, ih fun hempty => ?_⟩
      · have := congrArg List.length hempty
        rw [List.length_take, List.length_nil] at this
        have := List.length_pos_iff.mpr hne
        omega
      · have := List.drop_eq_nil_iff.mp hempty
        omega

namespace Feed

variable [ToString V] {cfg : FeedConfig V} {poison : CDCEvent V → Bool} {s s' : Feed V} {instanceID : String}

omit [ToString V] in
/-- Only the open batch and the queue change. -/
theorem flush_frame (s : Feed V) : ∃ batch queue, s.flush = { s with batch, queue } := by
  unfold Feed.flush
  split
  · exact ⟨_, _, rfl⟩
  · exact ⟨_, _, rfl⟩

omit [ToString V] in
theorem collect_frame (cfg : FeedConfig V) (s : Feed V) (lsn : String) (now : ℕ) (item : Item V) :
    ∃ batch queue, s.collect cfg lsn now item = { s with batch, queue } := by
  cases item with
  | change event =>
    simp only [Feed.collect]
    split
    · obtain ⟨batch, queue, h⟩ := flush_frame { s with batch := s.batch ++ [event] }
      exact ⟨batch, queue, h⟩
    · exact ⟨_, _, rfl⟩
  | commit => exact ⟨_, _, rfl⟩
  | mark content =>
    obtain ⟨batch, queue, h⟩ := flush_frame s
    exact ⟨batch, _, by rw [Feed.collect, h]⟩

omit [ToString V] in
@[simp] theorem flush_system (s : Feed V) : s.flush.system = s.system := by
  obtain ⟨batch, queue, h⟩ := flush_frame s
  rw [h]

omit [ToString V] in
@[simp] theorem collect_system (cfg : FeedConfig V) (s : Feed V) (lsn : String) (now : ℕ) (item : Item V) :
    (s.collect cfg lsn now item).system = s.system := by
  obtain ⟨batch, queue, h⟩ := collect_frame cfg s lsn now item
  rw [h]

omit [ToString V] in
@[simp] theorem collect_bench (cfg : FeedConfig V) (s : Feed V) (lsn : String) (now : ℕ) (item : Item V) :
    (s.collect cfg lsn now item).bench = s.bench := by
  obtain ⟨batch, queue, h⟩ := collect_frame cfg s lsn now item
  rw [h]

omit [ToString V] in
theorem Sorted.flush (h : s.Sorted instanceID) : s.flush.Sorted instanceID := by
  unfold Feed.flush
  split
  · exact h
  · rename_i hne
    refine { h with batch := by simp, queue := fun u hu => ?_, stream := .inl ?_ }
    · rcases List.mem_append.mp hu with hu | hu
      · exact h.queue u hu
      · rw [List.mem_singleton.mp hu]
        exact .inl (by simpa [FeedUnit.events] using h.batch)
    · exact h.stream.resolve_right fun hempty => hne hempty.1

omit [ToString V] in
/-- The process moves on, and the log gains no READ event. -/
theorem Sorted.turns (h : s.Sorted instanceID) {system : System V} (ht : Process.Turns s.system.process system.process)
    (hwal : ∀ e ∈ changes system.history.wal, e ∈ changes s.system.history.wal ∨ e.operation ≠ .read)
    (hstream : s.system.process.stream.isSome = true → system.process.stream.isSome = true) :
    Sorted instanceID { s with system } where
  tidy := h.tidy.turns ht
  own := ht.instanceID.trans h.own
  wal e he := (hwal e he).elim (h.wal e) id
  batch := h.batch
  queue := h.queue
  stream := h.stream.imp_left hstream

theorem changes_step {h h' : History V} {p p' : Process V} {a : ProcessAct V} (hstep : p.step h a = some (h', p')) :
    changes h'.wal = changes h.wal := by
  rcases Process.step_wal hstep with hwal | ⟨i, mark, -, hwal⟩
  · rw [hwal]
  · rw [hwal, changes_append]
    simp [changes, Item.change?]

/-- What a step of the system's own does. -/
theorem system_turns (s : Feed V) {system : System V} {a : SystemAct V} (hlive : (FeedAct.system a).Live)
    (hstep : s.system.step a = some system) :
    Process.Turns s.system.process system.process ∧
      ∀ e ∈ changes system.history.wal, e ∈ changes s.system.history.wal ∨ e.operation ≠ .read := by
  have hrefl := Process.Turns.refl s.system.process
  cases a with
  | commit events =>
    cases hstep
    refine ⟨hrefl, fun e he => ?_⟩
    rw [History.commit, changes_append, List.mem_append] at he
    exact he.imp_right fun he => hlive e (by simpa [mem_changes] using he)
  | foreign content =>
    cases hstep
    refine ⟨hrefl, fun e he => .inl ?_⟩
    simpa [History.foreign, changes, Item.change?] using he
  | process a =>
    simp only [System.step, Option.map_eq_some_iff] at hstep
    obtain ⟨⟨history, process⟩, hstep, rfl⟩ := hstep
    exact ⟨Process.step_turns hstep, fun e he => .inl (by rwa [changes_step hstep] at he)⟩

theorem Sorted.system (h : s.Sorted instanceID) {a : SystemAct V} (hother : isOther a = true)
    (hlive : (FeedAct.system a).Live) {system : System V} (hstep : s.system.step a = some system) :
    Sorted instanceID { s with system } := by
  obtain ⟨ht, hwal⟩ := system_turns s hlive hstep
  refine h.turns ht hwal fun hstream => ?_
  cases a with
  | process a =>
    simp only [System.step, Option.map_eq_some_iff] at hstep
    obtain ⟨⟨history, process⟩, hstep, rfl⟩ := hstep
    refine Process.step_stream hstep ?_ hstream
    rintro rfl
    cases hother
  | _ =>
    cases hstep
    exact hstream

omit [ToString V] in
theorem watermarkUnit_events (cfg : FeedConfig V) (p : Process V) (lsn : String) (now : ℕ) (content : Option WatermarkPayload) :
    (watermarkUnit cfg p lsn now content).events = (p.coordinator.handleWatermark lsn now content).1 :=
  rowBatches_flatten _ _ _

omit [ToString V] in
/-- The unit of a watermark: no rows, or those of one chunk. -/
theorem watermarkUnit_sorted {p : Process V} (hp : p.Tidy) (cfg : FeedConfig V) (lsn : String) (now : ℕ)
    (content : Option WatermarkPayload) :
    (watermarkUnit cfg p lsn now content).Sorted p.coordinator.instanceID := by
  by_cases hrows : (p.coordinator.handleWatermark lsn now content).1 = []
  · refine .inl fun e he => ?_
    rw [watermarkUnit_events, hrows] at he
    cases he
  · obtain ⟨i, hi, -, -, hread⟩ := Process.handleWatermark_rows hp { pos := 0 } hrows
    refine .inr ⟨i, (p.chunk i).table, content, ?_, rfl, rowBatches_nonempty (maxBatch_pos cfg.reader) _ hrows, fun e he => ?_⟩
    · simp only [watermarkUnit, if_neg hrows, hi]
    · rw [watermarkUnit_events] at he
      obtain ⟨row, rfl⟩ := hread e he
      exact ⟨rfl, row.key, rfl⟩

omit [ToString V] in
theorem Sorted.collect (h : s.Sorted instanceID) (cfg : FeedConfig V) (lsn : String) (now : ℕ) {item : Item V}
    (hstream : s.system.process.stream.isSome = true) (hitem : item ∈ s.system.history.wal) :
    (s.collect cfg lsn now item).Sorted instanceID := by
  cases item with
  | change event =>
    have hadded : Sorted instanceID { s with batch := s.batch ++ [event] } := by
      refine { h with batch := fun e he => ?_, stream := .inl hstream }
      rcases List.mem_append.mp he with he | he
      · exact h.batch e he
      · rw [List.mem_singleton.mp he]
        exact h.wal event (mem_changes.mpr hitem)
    simp only [Feed.collect]
    split
    · exact hadded.flush
    · exact hadded
  | commit => exact h
  | mark content =>
    have hflush := h.flush
    have hunit := watermarkUnit_sorted h.tidy cfg lsn now content
    rw [h.own] at hunit
    refine { hflush with queue := fun u hu => ?_, stream := .inl (by simpa using hstream) }
    rcases List.mem_append.mp hu with hu | hu
    · exact hflush.queue u hu
    · rw [List.mem_singleton.mp hu]
      exact hunit

/-- The feed once a unit has gone through the sink. -/
def after (poison : CDCEvent V → Bool) (s : Feed V) (u : FeedUnit V) (rest : List (FeedUnit V)) (bench : Bench V) : Feed V :=
  { s with bench, queue := rest, attempts := s.attempts ++ if u.events.any poison then [u] else [] }

/-- The steps, with what makes each possible. -/
inductive Steps (cfg : FeedConfig V) (poison : CDCEvent V → Bool) (s : Feed V) : FeedAct V → Feed V → Prop
  | system {a : SystemAct V} {system : System V} (hother : isOther a = true) (hstep : s.system.step a = some system) :
    Steps cfg poison s (.system a) { s with system }
  | take {lsn : String} {now : ℕ} {stream : Stream V} {item : Item V} (hstream : s.system.process.stream = some stream)
    (hitem : s.system.history.wal[stream.pos]? = some item) :
    Steps cfg poison s (.take lsn now)
      { s.collect cfg lsn now item with system := { s.system with process := s.system.process.take stream lsn now item } }
  | flush : Steps cfg poison s .flush s.flush
  | delivered {u : FeedUnit V} {rest : List (FeedUnit V)} {bench : Bench V} (hqueue : s.queue = u :: rest)
    (hrun : s.bench.exec (newManagerThreshold cfg.threshold) cfg.env (deliverBatches (benchSink cfg.sink) u.batches) =
      (none, bench)) :
    Steps cfg poison s .deliver ((s.after poison u rest bench).handled u)
  | failed {u : FeedUnit V} {rest : List (FeedUnit V)} {bench : Bench V} {err : Err} {system : System V}
    (hqueue : s.queue = u :: rest)
    (hrun : s.bench.exec (newManagerThreshold cfg.threshold) cfg.env (deliverBatches (benchSink cfg.sink) u.batches) =
      (some err, bench))
    (hdown : s.system.step (.process .down) = some system) :
    Steps cfg poison s .deliver { s.after poison u rest bench with system, batch := [], queue := [] }
  | down {system : System V} (hdown : s.system.step (.process .down) = some system) :
    Steps cfg poison s .down { s with system, batch := [], queue := [] }

theorem steps_of_step {a : FeedAct V} (hstep : s.step cfg poison a = some s') : Steps cfg poison s a s' := by
  cases a with
  | system a =>
    simp only [step, Option.ite_none_right_eq_some, Option.map_eq_some_iff] at hstep
    obtain ⟨hother, system, hsystem, rfl⟩ := hstep
    exact .system hother hsystem
  | take lsn now =>
    simp only [step, Option.bind_eq_bind, Option.bind_eq_some_iff, Option.pure_def, Option.some.injEq] at hstep
    obtain ⟨stream, hstream, item, hitem, system, hsystem, rfl⟩ := hstep
    simp only [System.step, Process.step, hstream, hitem, Option.bind_eq_bind, Option.bind_some, Option.pure_def,
      Option.map_some, Option.some.injEq] at hsystem
    rw [← hsystem]
    exact .take hstream hitem
  | flush =>
    cases hstep
    exact .flush
  | deliver =>
    simp only [step] at hstep
    split at hstep
    · cases hstep
    · rename_i u rest hqueue
      simp only [deliver] at hstep
      split at hstep
      · rename_i hrun
        cases hstep
        exact .delivered hqueue (Prod.ext hrun rfl)
      · rename_i err hrun
        simp only [teardown, Option.bind_eq_bind, Option.bind_eq_some_iff, Option.pure_def, Option.some.injEq] at hstep
        obtain ⟨system, hdown, rfl⟩ := hstep
        exact .failed hqueue (Prod.ext hrun rfl) hdown
  | down =>
    simp only [step, teardown, Option.bind_eq_bind, Option.bind_eq_some_iff, Option.pure_def, Option.some.injEq] at hstep
    obtain ⟨system, hdown, rfl⟩ := hstep
    exact .down hdown

omit [ToString V] in
theorem handled_turns (s : Feed V) (u : FeedUnit V) : Process.Turns s.system.process (s.handled u).system.process := by
  unfold handled
  split
  · exact Process.delivered_turns _ _ _ _
  · exact .refl _

theorem Sorted.down (h : s.Sorted instanceID) {system : System V} (hdown : s.system.step (.process .down) = some system) :
    Sorted instanceID { s with system, batch := [], queue := [] } := by
  have hlive : (FeedAct.system (.process .down) : FeedAct V).Live := trivial
  obtain ⟨ht, hwal⟩ := system_turns s hlive hdown
  exact ⟨h.tidy.turns ht, ht.instanceID.trans h.own, fun e he => (hwal e he).elim (h.wal e) id, by simp, by simp, .inr ⟨rfl, rfl⟩⟩

omit [ToString V] in
theorem Sorted.after (h : s.Sorted instanceID) {u : FeedUnit V} {rest : List (FeedUnit V)} (hqueue : s.queue = u :: rest)
    (poison : CDCEvent V → Bool) (bench : Bench V) : (s.after poison u rest bench).Sorted instanceID :=
  { h with
    queue := fun u' hu => h.queue u' (by rw [hqueue]; exact List.mem_cons_of_mem u hu)
    stream := h.stream.imp_right fun hempty => absurd hempty.2 (by simp [hqueue]) }

omit [ToString V] in
theorem Sorted.handled (h : s.Sorted instanceID) (u : FeedUnit V) : (s.handled u).Sorted instanceID := by
  have ht := handled_turns s u
  revert ht
  unfold Feed.handled
  split
  · intro ht
    have hmoved := h.turns ht (fun e he => .inl (by rwa [report_wal] at he)) fun _ => rfl
    exact { hmoved with }
  · exact fun _ => h

theorem Sorted.step (h : s.Sorted instanceID) {a : FeedAct V} (hlive : a.Live) (hstep : s.step cfg poison a = some s') :
    s'.Sorted instanceID := by
  cases steps_of_step hstep with
  | system hother hsystem => exact h.system hother hlive hsystem
  | @take lsn now stream item hstream hitem =>
    have hcollect := h.collect cfg lsn now (by rw [hstream]; rfl) (List.mem_of_getElem? hitem)
    refine hcollect.turns ?_ (fun e he => .inl (by simpa using he)) fun _ => ?_
    · simpa using Process.take_turns s.system.process stream lsn now item
    · cases item <;> rfl
  | flush => exact h.flush
  | delivered hqueue hrun => exact (h.after hqueue poison _).handled _
  | failed hqueue hrun hdown => exact (h.after hqueue poison _).down hdown
  | down hdown => exact h.down hdown

/-! ## A threshold above one -/

/-- The chunks whose rows are in the queue. -/
def chunks (s : Feed V) : List ℕ := s.queue.filterMap (·.chunk)

/-- Nothing was parked, and the chunks in the queue are new to the failure
counts. -/
structure Quiet (cfg : FeedConfig V) (instanceID : String) (ref : TableRef) (s : Feed V) : Prop where
  sorted : s.Sorted instanceID
  parked : s.bench.parked = []
  counted : ∀ i key, s.bench.failures.count cfg.sink (readID instanceID ref i key) ≠ 0 →
    s.system.process.Spent i ∧ i ∉ s.chunks
  spent : ∀ i ∈ s.chunks, s.system.process.Spent i
  nodup : s.chunks.Nodup

variable {ref : TableRef}

omit [ToString V] in
@[simp] theorem flush_chunks (s : Feed V) : s.flush.chunks = s.chunks := by
  unfold Feed.flush
  split
  · rfl
  · simp [chunks]

omit [ToString V] in
/-- Same queue, same bench, and the process moves on. -/
theorem Quiet.turns (h : s.Quiet cfg instanceID ref) (hsorted : s'.Sorted instanceID)
    (ht : Process.Turns s.system.process s'.system.process) (hbench : s'.bench = s.bench) (hchunks : s'.chunks = s.chunks) :
    s'.Quiet cfg instanceID ref where
  sorted := hsorted
  parked := by rw [hbench, h.parked]
  counted i key hcount := by
    rw [hbench] at hcount
    obtain ⟨hspent, hmem⟩ := h.counted i key hcount
    exact ⟨hspent.turns ht, by rwa [hchunks]⟩
  spent i hi := (h.spent i (by rwa [hchunks] at hi)).turns ht
  nodup := by rw [hchunks]; exact h.nodup

omit [ToString V] in
/-- What a log entry adds to the queue: nothing, or the rows of one more chunk. -/
theorem collect_chunks (cfg : FeedConfig V) (s : Feed V) (lsn : String) (now : ℕ) (item : Item V) :
    (s.collect cfg lsn now item).chunks = s.chunks ∨ ∃ content, item = .mark content ∧
      (s.collect cfg lsn now item).chunks = s.chunks ++ (watermarkUnit cfg s.system.process lsn now content).chunk.toList := by
  cases item with
  | change event =>
    refine .inl ?_
    simp only [Feed.collect]
    split
    · simp only [flush_chunks]
      rfl
    · rfl
  | commit => exact .inl rfl
  | mark content =>
    refine .inr ⟨content, rfl, ?_⟩
    have hflush : s.flush.queue.filterMap (·.chunk) = s.chunks := flush_chunks s
    simp only [Feed.collect, chunks, List.filterMap_append, hflush]
    cases hchunk : (watermarkUnit cfg s.system.process lsn now content).chunk with
    | none => simp [hchunk]
    | some i => simp [hchunk]

/-- The rows of a chunk that were not in the queue before are new to the failure
counts. -/
theorem Quiet.take (h : s.Quiet cfg instanceID ref) {lsn : String} {now : ℕ} {stream : Stream V} {item : Item V}
    (hsorted : Sorted instanceID
      { s.collect cfg lsn now item with system := { s.system with process := s.system.process.take stream lsn now item } }) :
    Quiet cfg instanceID ref
      { s.collect cfg lsn now item with system := { s.system with process := s.system.process.take stream lsn now item } } := by
  have ht := Process.take_turns s.system.process stream lsn now item
  rcases collect_chunks cfg s lsn now item with hsame | ⟨content, rfl, hmore⟩
  · exact h.turns hsorted ht (by simp) hsame
  · by_cases hrows : (s.system.process.coordinator.handleWatermark lsn now content).1 = []
    · have hnone : (watermarkUnit cfg s.system.process lsn now content).chunk = none := by simp [watermarkUnit, hrows]
      rw [hnone, Option.toList_none, List.append_nil] at hmore
      exact h.turns hsorted ht (by simp) hmore
    · obtain ⟨i, hi, hfresh, hspent, -⟩ := Process.handleWatermark_rows h.sorted.tidy stream hrows
      have hchunk : (watermarkUnit cfg s.system.process lsn now content).chunk = some i := by
        simp only [watermarkUnit, if_neg hrows, hi]
      rw [hchunk, Option.toList_some] at hmore
      have hchunks : chunks { s.collect cfg lsn now (.mark content) with
          system := { s.system with process := s.system.process.take stream lsn now (.mark content) } } = s.chunks ++ [i] := hmore
      refine ⟨hsorted, by simpa using h.parked, fun j key hcount => ?_, fun j hj => ?_, ?_⟩
      · simp only [collect_bench] at hcount
        obtain ⟨hold, hmem⟩ := h.counted j key hcount
        refine ⟨hold.turns ht, ?_⟩
        rw [hchunks, List.mem_append, List.mem_singleton, not_or]
        exact ⟨hmem, fun hji => hfresh (hji ▸ hold)⟩
      · rw [hchunks, List.mem_append, List.mem_singleton] at hj
        rcases hj with hj | rfl
        · exact (h.spent j hj).turns ht
        · exact hspent
      · rw [hchunks, List.nodup_append]
        exact ⟨h.nodup, List.nodup_singleton i, fun j hj k hk hjk => hfresh (by rw [List.mem_singleton.mp hk] at hjk; exact hjk ▸ h.spent j hj)⟩

omit [ToString V] in
@[simp] theorem handled_bench (s : Feed V) (u : FeedUnit V) : (s.handled u).bench = s.bench := by
  unfold handled
  split <;> rfl

omit [ToString V] in
@[simp] theorem handled_queue (s : Feed V) (u : FeedUnit V) : (s.handled u).queue = s.queue := by
  unfold handled
  split <;> rfl

omit [ToString V] in
/-- The stream went down. -/
theorem quiet_of_queue_nil (hsorted : s.Sorted instanceID) (hqueue : s.queue = []) (hparked : s.bench.parked = [])
    (hspent : ∀ i key, s.bench.failures.count cfg.sink (readID instanceID ref i key) ≠ 0 → s.system.process.Spent i) :
    s.Quiet cfg instanceID ref :=
  have hchunks : s.chunks = [] := by rw [chunks, hqueue]; rfl
  ⟨hsorted, hparked, fun i key hne => ⟨hspent i key hne, by simp [hchunks]⟩, by simp [hchunks], by simp [hchunks]⟩

section Sink

variable (henv : cfg.env.Poison poison)
  (htransient : ∀ n batch err, cfg.env.answer n batch = some err → err.isPermanent = false)
  (hpoison : ∀ e, poison e = true → e.operation = .read ∧ eventRef e = ref)

omit [ToString V] in
include henv htransient hpoison in
/-- A unit with poison in it fails, and counts its failure against an event of
its own chunk, which no failure was counted against before. -/
theorem Quiet.poisoned (h : s.Quiet cfg instanceID ref) (hthreshold : 1 < newManagerThreshold cfg.threshold)
    {u : FeedUnit V} {rest : List (FeedUnit V)} (hqueue : s.queue = u :: rest) (hany : u.events.any poison = true)
    {result : Option Err} {bench : Bench V}
    (hrun : s.bench.exec (newManagerThreshold cfg.threshold) cfg.env (deliverBatches (benchSink cfg.sink) u.batches) =
      (result, bench)) :
    result ≠ none ∧ bench.parked = [] ∧
      ∀ i key, bench.failures.count cfg.sink (readID instanceID ref i key) ≠ 0 → s.system.process.Spent i := by
  have hmem : u ∈ s.queue := by simp [hqueue]
  obtain ⟨e, he, hp⟩ := List.any_eq_true.mp hany
  obtain ⟨hread, href⟩ := hpoison e hp
  obtain ⟨i, ref', content, hchunk, -, hne, hids⟩ := (h.sorted.queue u hmem).resolve_left fun hlive => hlive e he hread
  obtain rfl : ref' = ref := (hids e he).1.symm.trans href
  have hi : i ∈ s.chunks := List.mem_filterMap.mpr ⟨u, hmem, hchunk⟩
  obtain ⟨first, hfirst, -, hcounts⟩ :=
    Bench.cycle_run (newManagerThreshold cfg.threshold) cfg.sink henv htransient hne hany s.bench
  obtain ⟨-, key, hkey⟩ := hids first (countedEvent_mem hfirst)
  have hzero : s.bench.failures.count cfg.sink first.id = 0 := by
    by_contra hcount
    rw [hkey] at hcount
    exact (h.counted i key hcount).2 hi
  have hahead : ∀ id, s.bench.countAhead cfg.sink poison u.batches id ≤ s.bench.failures.count cfg.sink id := by
    intro id
    unfold Bench.countAhead
    split <;> omega
  have hless : s.bench.countAhead cfg.sink poison u.batches first.id + 1 < newManagerThreshold cfg.threshold := by
    have := hahead first.id
    omega
  obtain ⟨hfails, hparked, hcount⟩ := hcounts hless
  rw [hrun] at hfails hparked hcount
  refine ⟨hfails, hparked.trans h.parked, fun j key' hne => ?_⟩
  rw [hcount] at hne
  split at hne
  · rename_i heq
    rw [hkey] at heq
    rw [readID_seq_inj heq]
    exact h.spent i hi
  · have := hahead (readID instanceID ref' j key')
    exact (h.counted j key' (by omega)).1

include henv htransient hpoison in
theorem Quiet.step (h : s.Quiet cfg instanceID ref) (hthreshold : 1 < newManagerThreshold cfg.threshold) {a : FeedAct V}
    (hlive : a.Live) (hstep : s.step cfg poison a = some s') : s'.Quiet cfg instanceID ref := by
  have hsorted := h.sorted.step hlive hstep
  cases steps_of_step hstep with
  | system hother hsystem => exact h.turns hsorted (system_turns s hlive hsystem).1 rfl rfl
  | take hstream hitem => exact h.take hsorted
  | flush =>
    obtain ⟨batch, queue, hframe⟩ := flush_frame s
    exact h.turns hsorted (by simpa using Process.Turns.refl s.system.process) (by simp [hframe]) (by simp)
  | @delivered u rest bench hqueue hrun =>
    have hclean : u.events.any poison = false := by
      cases hany : u.events.any poison with
      | false => rfl
      | true => exact absurd rfl (h.poisoned henv htransient hpoison hthreshold hqueue hany hrun).1
    obtain ⟨-, hparked, hcount⟩ := Bench.cycle_clean (newManagerThreshold cfg.threshold) cfg.sink henv hclean s.bench
    rw [hrun] at hparked hcount
    have ht : Process.Turns s.system.process ((s.after poison u rest bench).handled u).system.process :=
      handled_turns (s.after poison u rest bench) u
    have hrest : (rest.filterMap (·.chunk)).Sublist s.chunks := by
      rw [chunks, hqueue]
      exact (List.sublist_cons_self u rest).filterMap _
    have hchunks : ((s.after poison u rest bench).handled u).chunks = rest.filterMap (·.chunk) := by
      rw [chunks, handled_queue]
      rfl
    refine ⟨hsorted, ?_, fun i key hne => ?_, fun i hi => ?_, ?_⟩
    · rw [handled_bench]
      exact hparked.trans h.parked
    · rw [handled_bench] at hne
      have hle : bench.failures.count cfg.sink (readID instanceID ref i key) ≤ _ := hcount _
      have hne : bench.failures.count cfg.sink (readID instanceID ref i key) ≠ 0 := hne
      obtain ⟨hspent, hmem⟩ := h.counted i key (by omega)
      exact ⟨hspent.turns ht, fun hi => hmem (hrest.subset (by rwa [hchunks] at hi))⟩
    · rw [hchunks] at hi
      exact (h.spent i (hrest.subset hi)).turns ht
    · rw [hchunks]
      exact h.nodup.sublist hrest
  | @failed u rest bench err system hqueue hrun hdown =>
    have hany : u.events.any poison = true := by
      cases hany : u.events.any poison with
      | true => rfl
      | false =>
        have hclean := (Bench.cycle_clean (newManagerThreshold cfg.threshold) cfg.sink henv hany s.bench).1
        rw [hrun] at hclean
        cases hclean
    obtain ⟨-, hparked, hspent⟩ := h.poisoned henv htransient hpoison hthreshold hqueue hany hrun
    have hlive : (FeedAct.system (.process .down) : FeedAct V).Live := trivial
    exact quiet_of_queue_nil hsorted rfl hparked fun i key hne => (hspent i key hne).turns (system_turns s hlive hdown).1
  | down hdown =>
    have hlive : (FeedAct.system (.process .down) : FeedAct V).Live := trivial
    exact quiet_of_queue_nil hsorted rfl h.parked fun i key hne => (h.counted i key hne).1.turns (system_turns s hlive hdown).1

end Sink

/-! ## A threshold of one -/

/-- The READ event is in the dead-letter queue, and its chunk was reported
delivered. -/
def Resolved (poison : CDCEvent V → Bool) (s : Feed V) (u : FeedUnit V) : Prop :=
  (∃ e ∈ u.events, poison e = true ∧ e ∈ s.bench.parkedEvents) ∧ ∃ content, u.watermark = some content ∧ content ∈ s.reported

omit [ToString V] in
theorem Resolved.mono {u : FeedUnit V} (h : s.Resolved poison u) (hparked : ∀ e ∈ s.bench.parkedEvents, e ∈ s'.bench.parkedEvents)
    (hreported : ∀ content ∈ s.reported, content ∈ s'.reported) : s'.Resolved poison u := by
  obtain ⟨⟨e, he, hp, hmem⟩, content, hcontent, hin⟩ := h
  exact ⟨⟨e, he, hp, hparked e hmem⟩, content, hcontent, hreported content hin⟩

omit [ToString V] in
theorem handled_attempts (s : Feed V) (u : FeedUnit V) : (s.handled u).attempts = s.attempts := by
  unfold handled
  split <;> rfl

omit [ToString V] in
theorem handled_reported (s : Feed V) (u : FeedUnit V) : ∀ content ∈ s.reported, content ∈ (s.handled u).reported := by
  intro content hmem
  unfold handled
  split
  · exact List.mem_append_left _ hmem
  · exact hmem

omit [ToString V] in
theorem mem_handled_reported {u : FeedUnit V} {content : Option WatermarkPayload} (hwatermark : u.watermark = some content)
    (hstream : s.system.process.stream.isSome = true) : content ∈ (s.handled u).reported := by
  obtain ⟨stream, hstream⟩ := Option.isSome_iff_exists.mp hstream
  simp [handled, hwatermark, hstream]

/-- Every attempt is resolved. -/
structure Cleared (instanceID : String) (poison : CDCEvent V → Bool) (s : Feed V) : Prop where
  sorted : s.Sorted instanceID
  resolved : ∀ u ∈ s.attempts, s.Resolved poison u

omit [ToString V] in
theorem Cleared.same (h : s.Cleared instanceID poison) (hsorted : s'.Sorted instanceID) (hsame : s'.bench = s.bench)
    (hattempts : s'.attempts = s.attempts) (hreported : s'.reported = s.reported) : s'.Cleared instanceID poison :=
  ⟨hsorted, fun u hu => (h.resolved u (by rwa [hattempts] at hu)).mono (by simp [hsame]) (by simp [hreported])⟩

theorem Cleared.step (henv : cfg.env.Poison poison)
    (htransient : ∀ n batch err, cfg.env.answer n batch = some err → err.isPermanent = false)
    (hpoison : ∀ e, poison e = true → e.operation = .read) (hone : newManagerThreshold cfg.threshold = 1)
    (h : s.Cleared instanceID poison) {a : FeedAct V} (hlive : a.Live) (hstep : s.step cfg poison a = some s') :
    s'.Cleared instanceID poison := by
  have hsorted := h.sorted.step hlive hstep
  cases steps_of_step hstep with
  | system hother hsystem => exact h.same hsorted rfl rfl rfl
  | @take lsn now stream item hstream hitem =>
    obtain ⟨batch, queue, hframe⟩ := collect_frame cfg s lsn now item
    exact h.same hsorted (by simp [hframe]) (by simp [hframe]) (by simp [hframe])
  | flush =>
    obtain ⟨batch, queue, hframe⟩ := flush_frame s
    exact h.same hsorted (by simp [hframe]) (by simp [hframe]) (by simp [hframe])
  | @delivered u rest bench hqueue hrun =>
    obtain ⟨bench', hrun', hparked⟩ := Bench.cycle_isolates cfg.sink henv htransient u.batches s.bench
    rw [hone, hrun'] at hrun
    obtain rfl := (Prod.mk.inj hrun).2
    refine ⟨hsorted, fun u' hu => ?_⟩
    have hparks : ∀ e ∈ s.bench.parkedEvents ++ u.events.filter poison, e ∈ ((s.after poison u rest bench').handled u).bench.parkedEvents := by
      intro e he
      rw [handled_bench]
      exact hparked ▸ he
    rw [handled_attempts] at hu
    rcases List.mem_append.mp hu with hu | hu
    · exact (h.resolved u' hu).mono (fun e he => hparks e (List.mem_append_left _ he)) (handled_reported (s.after poison u rest bench') u)
    · split at hu
      · rename_i hany
        obtain rfl := List.mem_singleton.mp hu
        obtain ⟨e, he, hp⟩ := List.any_eq_true.mp hany
        obtain ⟨i, ref, content, -, hwatermark, -⟩ :=
          (h.sorted.queue u' (by simp [hqueue])).resolve_left fun hlive => hlive e he (hpoison e hp)
        have hstream : s.system.process.stream.isSome = true :=
          h.sorted.stream.resolve_right fun hempty => absurd hempty.2 (by simp [hqueue])
        exact ⟨⟨e, he, hp, hparks e (List.mem_append_right _ (List.mem_filter.mpr ⟨he, hp⟩))⟩, content, hwatermark,
          mem_handled_reported hwatermark hstream⟩
      · cases hu
  | @failed u rest bench err system hqueue hrun hdown =>
    obtain ⟨bench', hrun', -⟩ := Bench.cycle_isolates cfg.sink henv htransient u.batches s.bench
    rw [hone, hrun'] at hrun
    cases hrun
  | down hdown => exact h.same hsorted rfl rfl rfl

end Feed

/-! ## The row -/

section Row

variable [ToString V]

/-- The READ event of a row, from whatever chunk. -/
def readsRow (ref : TableRef) (pkCols : List String) (key : String) (e : CDCEvent V) : Bool :=
  decide (e.operation = .read ∧ eventRef e = ref ∧ rowKey pkCols e.newData = some key)

omit [ToString V] in
theorem sorted_start (backfill : Config) (instanceID : String) : (startFeed backfill instanceID : Feed V).Sorted instanceID where
  tidy := ⟨⟨fun i hi => absurd (hi.2.trans_le hi.1) (Nat.lt_irrefl 0), by simp [startFeed, newProcess, newCoordinator]⟩,
    fun i hi => by cases hi⟩
  own := rfl
  wal := by simp [startFeed]
  batch := by simp [startFeed]
  queue := by simp [startFeed]
  stream := .inr ⟨rfl, rfl⟩

/-- **A poison row is isolated exactly when the threshold is one**: where every
delivery of its READ event fails with a transient error, and everything else
succeeds, and however often the chunk is emitted again, as many attempts as the
threshold have parked the event and reported its chunk delivered if and only if
the threshold is one. -/
theorem poison_row_isolated_iff (cfg : FeedConfig V) (backfill : Config) (instanceID : String) {ref : TableRef}
    {pkCols : List String} {key : String} (henv : cfg.env.Poison (readsRow ref pkCols key))
    (htransient : ∀ n batch err, cfg.env.answer n batch = some err → err.isPermanent = false) {s : Feed V}
    (hreach : Reaches (Feed.step cfg (readsRow ref pkCols key)) (fun _ a => a.Live) (startFeed backfill instanceID) s)
    (hattempts : newManagerThreshold cfg.threshold ≤ s.attempts.length) :
    (∃ u ∈ s.attempts.take (newManagerThreshold cfg.threshold), s.Resolved (readsRow ref pkCols key) u) ↔
      newManagerThreshold cfg.threshold = 1 := by
  have hpos := newManagerThreshold_pos cfg.threshold
  have hpoison : ∀ e : CDCEvent V, readsRow ref pkCols key e = true → e.operation = .read ∧ eventRef e = ref := by
    intro e he
    obtain ⟨hread, href, -⟩ := of_decide_eq_true he
    exact ⟨hread, href⟩
  constructor
  · rintro ⟨u, -, ⟨e, -, -, hparked⟩, -⟩
    by_contra hone
    have hstart : (startFeed backfill instanceID : Feed V).Quiet cfg instanceID ref :=
      Feed.quiet_of_queue_nil (sorted_start backfill instanceID) rfl rfl fun i key hne => absurd rfl hne
    have hquiet : s.Quiet cfg instanceID ref :=
      hreach.invariant (fun _ _ _ h hlive hstep => h.step henv htransient hpoison (by omega) hlive hstep) hstart
    rw [Bench.parkedEvents, hquiet.parked] at hparked
    cases hparked
  · intro hone
    have hcleared : s.Cleared instanceID (readsRow ref pkCols key) :=
      hreach.invariant (fun _ _ _ h hlive hstep => h.step henv htransient (fun e he => (hpoison e he).1) hone hlive hstep)
        ⟨sorted_start backfill instanceID, by simp [startFeed]⟩
    obtain ⟨u, rest, hu⟩ := List.exists_cons_of_length_pos (hpos.trans_le hattempts)
    rw [hone, hu]
    exact ⟨u, by simp, hcleared.resolved u (by simp [hu])⟩

end Row

/-! ### One row -/

/-- The row with id 1 is refused, as a sick sink would. -/
def refusedRow (threshold : Int) : FeedConfig ℕ where
  reader := { typeMap := ⟨fun _ => none, fun _ => 0⟩, controller := true, maxBatchEvents := 0 }
  threshold
  sink := "s"
  env := rejects (readsRow users ["id"] "1") (.new "connection refused")

/-- A session starts, chunk `i` is selected and published, and its watermarks,
which are the next two entries of the log, go through the sink. -/
def emitChunk (pos i : ℕ) : List (FeedAct ℕ) :=
  [.system (.process (.up pos)), .system (.process (.register 0 users ["id"] [])), .system (.process (.emitLow i true true)),
    .system (.process (.select i (some (pos + 1, { rows := [firstUser], lastCursor := ["1"] })))),
    .system (.process (.publish i)), .system (.process (.emitHigh i true true)), .take "0/10" 0, .take "0/20" 0, .deliver, .deliver]

def oneTable : Config := { slotName := "gtc", chunkSize := 10, lanes := 1 }

theorem emitChunk_live (pos i : ℕ) : ∀ a ∈ emitChunk pos i, a.Live := by
  simp [emitChunk, FeedAct.Live]

theorem refusedRow_transient (threshold : Int) :
    ∀ n batch err, (refusedRow threshold).env.answer n batch = some err → err.isPermanent = false := by
  intro n batch err h
  rw [rejects_eq_some h]
  decide

/-- With a threshold of one the first attempt parks the row. -/
theorem poison_row_isolated_first : ∃ s : Feed ℕ,
    Reaches (Feed.step (refusedRow 1) (readsRow users ["id"] "1")) (fun _ a => a.Live) (startFeed oneTable "7f3a") s ∧
      ∃ u ∈ s.attempts.take 1, s.Resolved (readsRow users ["id"] "1") u := by
  obtain ⟨s, hs⟩ := Option.isSome_iff_exists.mp
    (show (runSteps (Feed.step (refusedRow 1) (readsRow users ["id"] "1")) (startFeed oneTable "7f3a") (emitChunk 0 1)).isSome from by
      decide +kernel)
  have hlength : s.attempts.length = 1 := runSteps_observe (f := fun s => s.attempts.length) hs (by decide +kernel)
  have hreach : Reaches (Feed.step (refusedRow 1) (readsRow users ["id"] "1")) (fun _ a => a.Live) (startFeed oneTable "7f3a") s :=
    reaches_of_runSteps_ok (fun a ha _ => emitChunk_live 0 1 a ha) hs
  exact ⟨s, hreach, (poison_row_isolated_iff (refusedRow 1) oneTable "7f3a" (rejects_poison (by decide) (by decide))
    (refusedRow_transient 1) hreach hlength.ge).mpr rfl⟩

/-- With a threshold of two, two attempts leave the row where it was: its READ
events are "bf:7f3a-public.users-1:1" and "bf:7f3a-public.users-2:1". -/
theorem poison_row_not_isolated : ∃ s : Feed ℕ,
    Reaches (Feed.step (refusedRow 2) (readsRow users ["id"] "1")) (fun _ a => a.Live) (startFeed oneTable "7f3a") s ∧
      newManagerThreshold 2 = 2 ∧ s.attempts.length = 2 ∧
      s.attempts.map (fun u => u.events.map (·.id)) = [["bf:7f3a-public.users-1:1"], ["bf:7f3a-public.users-2:1"]] ∧
      s.bench.parkedEvents = [] ∧ ∀ u ∈ s.attempts, ¬ s.Resolved (readsRow users ["id"] "1") u := by
  obtain ⟨s, hs⟩ := Option.isSome_iff_exists.mp
    (show (runSteps (Feed.step (refusedRow 2) (readsRow users ["id"] "1")) (startFeed oneTable "7f3a")
      (emitChunk 0 1 ++ emitChunk 2 2)).isSome from by decide +kernel)
  have hids : s.attempts.map (fun u => u.events.map (·.id)) = [["bf:7f3a-public.users-1:1"], ["bf:7f3a-public.users-2:1"]] :=
    runSteps_observe (f := fun s => s.attempts.map fun u => u.events.map (·.id)) hs (by decide +kernel)
  have hparked : s.bench.parkedEvents = [] := runSteps_observe (f := fun s => s.bench.parkedEvents) hs (by decide +kernel)
  refine ⟨s, reaches_of_runSteps_ok (fun a ha _ => ?_) hs, by decide, ?_, hids, hparked, fun u _ hresolved => ?_⟩
  · rcases List.mem_append.mp ha with ha | ha
    · exact emitChunk_live _ _ a ha
    · exact emitChunk_live _ _ a ha
  · simpa using congrArg List.length hids
  · obtain ⟨⟨e, -, -, hmem⟩, -⟩ := hresolved
    rw [hparked] at hmem
    cases hmem

end Gtc.Backfill
