/-
What a process knows about its chunks: where their watermarks are in the log,
what their selects saw, and which keys the stream has shown it in between.

`CallOk` is about one chunk wherever the stream is: its snapshot lies between
its watermarks, and once its high watermark came by, every row it selected was
emitted or had its key observed between the two. `FlightOk` is about a chunk in
flight and a session: before the low watermark the chunk has seen nothing, up
to the high one it has seen exactly the keys that came by. A process is `Sound`
when this holds of all its chunks; every step keeps it, and so does anything
other processes write to the log.
-/
import Gtc.Backfill.Process

namespace Gtc.Backfill

variable {V : Type}

/-! ## Histories grow -/

structure History.Extends (h h' : History V) : Prop where
  wal : h.wal <+: h'.wal
  reports : ∀ r ∈ h.reports, r ∈ h'.reports

theorem History.Extends.refl (h : History V) : h.Extends h := ⟨List.prefix_rfl, fun _ hr => hr⟩

theorem History.Extends.append (h : History V) (items : List (Item V)) : h.Extends { h with wal := h.wal ++ items } :=
  ⟨List.prefix_append h.wal items, fun _ hr => hr⟩

variable {wal wal' : List (Item V)}

theorem getElem?_of_grows (hp : wal <+: wal') {q : ℕ} {item : Item V}
    (hq : wal[q]? = some item) : wal'[q]? = some item := by
  obtain ⟨items, rfl⟩ := hp
  rw [List.getElem?_append_left (List.getElem?_eq_some_iff.mp hq).1, hq]

theorem take_of_grows (hp : wal <+: wal') {b : ℕ} (hb : b ≤ wal.length) : wal'.take b = wal.take b := by
  obtain ⟨items, rfl⟩ := hp
  exact List.take_append_of_le_length hb

theorem between_of_grows (hp : wal <+: wal') {b : ℕ} (hb : b ≤ wal.length) (a : ℕ) :
    between wal' a b = between wal a b := by rw [between, take_of_grows hp hb, between]

theorem lt_length {q : ℕ} {item : Item V} (hq : wal[q]? = some item) : q < wal.length :=
  (List.getElem?_eq_some_iff.mp hq).1

section Write

variable {h : History V} {written : Bool} {payload payload' : WatermarkPayload} {q : ℕ}

theorem write_extends (h : History V) (written : Bool) (payload : WatermarkPayload) :
    h.Extends (Process.write h written payload) := by
  cases written with
  | false => exact History.Extends.refl h
  | true => exact History.Extends.append h _

theorem writtenAt_eq (hq : Process.writtenAt h written = some q) : q = h.wal.length := by
  cases written with
  | false => cases hq
  | true => cases hq; rfl

theorem getElem?_writtenAt (hq : Process.writtenAt h written = some q) :
    (Process.write h written payload).wal[q]? = some (.mark (some payload)) := by
  cases written with
  | false => cases hq
  | true => cases hq; simp [Process.write]

/-- A watermark in the log was there before, or is the one just written. -/
theorem mark_write (hq : (Process.write h written payload).wal[q]? = some (.mark (some payload'))) :
    h.wal[q]? = some (.mark (some payload')) ∨ Process.writtenAt h written = some q ∧ payload' = payload := by
  cases written with
  | false => exact .inl hq
  | true =>
    by_cases hlt : q < h.wal.length
    · rw [Process.write, if_pos rfl, List.getElem?_append_left hlt] at hq
      exact .inl hq
    · have hle := lt_length hq
      have hqlen : q = h.wal.length := by
        simp [Process.write] at hle
        omega
      subst hqlen
      simp [Process.write] at hq
      exact .inr ⟨rfl, hq.symm⟩

end Write

/-! ## One chunk -/

section Chunks

variable [ToString V] {db : Database V} {cfg : Config} {h h' : History V} {ch : ChunkInFlight V} {call : Call V}

/-- The event is a READ of the row. -/
def IsRead (ref : TableRef) (row : Row V) (event : CDCEvent V) : Prop := ∃ lsn now id, event = readEvent lsn now id ref row

structure CallOk (db : Database V) (cfg : Config) (h : History V) (ch : ChunkInFlight V) (call : Call V) : Prop where
  low : ∀ l, call.low = some l → h.wal[l]? = some (.mark (some ⟨cfg.slotName, ch.id, "low"⟩))
  high : ∀ q, call.high = some q → h.wal[q]? = some (.mark (some ⟨cfg.slotName, ch.id, "high"⟩))
  unwritten : call.stage = .low → call.low = none
  unselected : call.stage = .low ∨ call.stage = .select → call.selection = none
  selection : ∀ s chunk, call.selection = some (s, chunk) → ∃ l, call.low = some l ∧ l < s ∧ s ≤ h.wal.length ∧
    db.FirstRows (db.source (h.wal.take s)) ch.table call.cursor cfg.chunkSize chunk
  published : call.stage = .high ∨ call.stage = .returned → ∃ s chunk, call.selection = some (s, chunk) ∧
    ch.rowCount = chunk.rows.length ∧ ch.lastCursor = chunk.lastCursor
  sent : ∀ q, call.high = some q → call.stage = .returned ∨ call.stage = .abandon ∨ call.stage = .failed
  selected : ∀ q, call.high = some q → ∃ s chunk, call.selection = some (s, chunk) ∧ s ≤ q
  pending : ∀ s chunk, call.selection = some (s, chunk) → call.stage = .high ∨ call.high ≠ none → call.read = none →
    ch.pending = chunk.rows
  read : ∀ reads, call.read = some reads → ∃ l s chunk q, call.low = some l ∧ call.selection = some (s, chunk) ∧
    call.high = some q ∧ ∀ row ∈ chunk.rows, (∃ event ∈ reads, IsRead ch.table row event) ∨
      db.Observed (between h.wal (l + 1) q) ch.table row.key
  done : ch.done = true → (∃ s chunk, call.selection = some (s, chunk) ∧ chunk.rows = []) ∨
    ∃ low read, call.low = some low ∧ call.read = some read ∧ { table := ch.table, low, read } ∈ h.reports

structure FlightOk (db : Database V) (wal : List (Item V)) (pos : ℕ) (ch : ChunkInFlight V) (call : Call V) : Prop where
  before : (∀ l, call.low = some l → pos ≤ l) → ch.collecting = false ∧ ch.seen = []
  during : ∀ l, call.low = some l → l < pos → (∀ q, call.high = some q → pos ≤ q) →
    ch.collecting = true ∧ ∀ key, key ∈ ch.seen ↔ db.Observed (between wal (l + 1) pos) ch.table key
  unread : (∀ q, call.high = some q → pos ≤ q) → call.read = none
  after : ∀ q, call.high = some q → q < pos → ch.collecting = false ∧ call.read ≠ none

theorem CallOk.mono (hc : CallOk db cfg h ch call) (hx : h.Extends h') : CallOk db cfg h' ch call where
  low l hl := getElem?_of_grows hx.wal (hc.low l hl)
  high q hq := getElem?_of_grows hx.wal (hc.high q hq)
  unwritten := hc.unwritten
  unselected := hc.unselected
  selection s chunk hsel := by
    obtain ⟨l, hl, hls, hlen, hrows⟩ := hc.selection s chunk hsel
    refine ⟨l, hl, hls, Nat.le_trans hlen hx.wal.length_le, ?_⟩
    rwa [take_of_grows hx.wal hlen]
  published := hc.published
  sent := hc.sent
  selected := hc.selected
  pending := hc.pending
  read reads hreads := by
    obtain ⟨l, s, chunk, q, hl, hsel, hq, hrows⟩ := hc.read reads hreads
    refine ⟨l, s, chunk, q, hl, hsel, hq, ?_⟩
    rwa [between_of_grows hx.wal (Nat.le_of_lt (lt_length (hc.high q hq)))]
  done hdone := by
    rcases hc.done hdone with hempty | ⟨low, read, hlow, hread, hmem⟩
    · exact .inl hempty
    · exact .inr ⟨low, read, hlow, hread, hx.reports _ hmem⟩

theorem FlightOk.mono {pos : ℕ} (hf : FlightOk db h.wal pos ch call) (hx : h.Extends h') (hpos : pos ≤ h.wal.length) :
    FlightOk db h'.wal pos ch call where
  before := hf.before
  during l hl hlt hq := by
    rw [between_of_grows hx.wal hpos]
    exact hf.during l hl hlt hq
  unread := hf.unread
  after := hf.after

/-- Nothing in `CallOk` depends on what the stream has shown the chunk. -/
theorem CallOk.observed (hc : CallOk db cfg h ch call) (collecting : Bool) (seen : List String) :
    CallOk db cfg h { ch with collecting, seen } call where
  low := hc.low
  high := hc.high
  unwritten := hc.unwritten
  unselected := hc.unselected
  selection := hc.selection
  published := hc.published
  sent := hc.sent
  selected := hc.selected
  pending := hc.pending
  read := hc.read
  done := hc.done

/-- Until its high watermark is written a chunk has not been emitted. -/
theorem CallOk.unread (hc : CallOk db cfg h ch call) (hstage : call.stage ≠ .returned) (habandon : call.stage ≠ .abandon)
    (hfailed : call.stage ≠ .failed) : call.high = none ∧ call.read = none := by
  have hhigh : call.high = none := by
    cases hq : call.high with
    | none => rfl
    | some q =>
      rcases hc.sent q hq with hs | hs | hs
      · exact absurd hs hstage
      · exact absurd hs habandon
      · exact absurd hs hfailed
  refine ⟨hhigh, ?_⟩
  cases hread : call.read with
  | none => rfl
  | some reads =>
    obtain ⟨l, s, chunk, q, -, -, hq, -⟩ := hc.read reads hread
    rw [hhigh] at hq
    cases hq

end Chunks

/-! ## All chunks of a process -/

section Sound

variable [ToString V] {db : Database V} {h h' : History V} {p p' : Process V}

structure Sound (db : Database V) (h : History V) (p : Process V) : Prop where
  valid : p.coordinator.Valid
  pkCols : ∀ i, p.coordinator.Registered i → (p.chunk i).pkCols = db.primaryKey (p.chunk i).table
  registered : ∀ i, (p.calls i).stage ≠ .failed → p.coordinator.Registered i
  /-- The process's watermarks in the log are those of its calls. -/
  marks : ∀ q payload, h.wal[q]? = some (.mark (some payload)) → ∀ ref i,
    payload.chunk = chunkID p.coordinator.instanceID ref i → p.coordinator.Registered i ∧
      ((p.calls i).low = some q ∧ payload.mark = "low" ∨ (p.calls i).high = some q ∧ payload.mark = "high")
  call : ∀ i, p.coordinator.Registered i → CallOk db p.coordinator.cfg h (p.chunk i) (p.calls i)
  flight : ∀ s, p.stream = some s → ∀ i ∈ p.coordinator.inflight, FlightOk db h.wal s.pos (p.chunk i) (p.calls i)
  pos : ∀ s, p.stream = some s → s.pos ≤ h.wal.length
  waiting : ∀ s, p.stream = some s → ∀ content ∈ s.waiting, ∃ q, q < s.pos ∧ h.wal[q]? = some (.mark content)

theorem sound_newProcess (db : Database V) (cfg : Config) {instanceID : String}
    (hmarks : ∀ (q : ℕ) payload, h.wal[q]? = some (Item.mark (some payload)) → ∀ ref i,
      payload.chunk ≠ chunkID instanceID ref i) :
    Sound db h (newProcess cfg instanceID) where
  valid := ⟨fun i hi => absurd hi.2 (Nat.not_lt.mpr hi.1), fun i hi => absurd hi (by simp [newProcess, newCoordinator])⟩
  pkCols i hi := absurd hi.2 (Nat.not_lt.mpr hi.1)
  registered i hi := absurd rfl hi
  marks q payload hq ref i hid := absurd hid (hmarks q payload hq ref i)
  call i hi := absurd hi.2 (Nat.not_lt.mpr hi.1)
  flight s hs := nomatch hs
  pos s hs := nomatch hs
  waiting s hs := nomatch hs

/-- What others write to the log changes nothing for the process. -/
theorem Sound.extends (hs : Sound db h p) (hx : h.Extends h')
    (hmarks : ∀ q payload, h.wal.length ≤ q → h'.wal[q]? = some (.mark (some payload)) → ∀ ref i,
      payload.chunk ≠ chunkID p.coordinator.instanceID ref i) : Sound db h' p where
  valid := hs.valid
  pkCols := hs.pkCols
  registered := hs.registered
  marks q payload hq ref i hid := by
    by_cases hlt : q < h.wal.length
    · obtain ⟨items, hitems⟩ := hx.wal
      rw [← hitems, List.getElem?_append_left hlt] at hq
      exact hs.marks q payload hq ref i hid
    · exact absurd hid (hmarks q payload (Nat.not_lt.mp hlt) hq ref i)
  call i hi := (hs.call i hi).mono hx
  flight s hstream i hi := (hs.flight s hstream i hi).mono hx (hs.pos s hstream)
  pos s hstream := Nat.le_trans (hs.pos s hstream) hx.wal.length_le
  waiting s hstream content hc := by
    obtain ⟨q, hlt, hq⟩ := hs.waiting s hstream content hc
    exact ⟨q, hlt, getElem?_of_grows hx.wal hq⟩

/-- A step on one chunk, which registers nothing. -/
theorem Sound.update (hs : Sound db h p) (hx : h.Extends h') (he : p.coordinator.Evolves p'.coordinator) {i : ℕ}
    (hi : p.coordinator.Registered i) (hchunks : ∀ j, j ≠ i → p'.chunk j = p.chunk j)
    (hcalls : ∀ j, j ≠ i → p'.calls j = p.calls j)
    (hstream : ∀ s', p'.stream = some s' → ∃ s, p.stream = some s ∧ s'.pos = s.pos ∧ ∀ content ∈ s'.waiting, content ∈ s.waiting)
    (hmarks : ∀ q payload, h'.wal[q]? = some (.mark (some payload)) → ∀ ref j,
      payload.chunk = chunkID p.coordinator.instanceID ref j → p.coordinator.Registered j ∧
        ((p'.calls j).low = some q ∧ payload.mark = "low" ∨ (p'.calls j).high = some q ∧ payload.mark = "high"))
    (hcall : CallOk db p.coordinator.cfg h' (p'.chunk i) (p'.calls i))
    (hflight : ∀ s, p.stream = some s → i ∈ p'.coordinator.inflight → FlightOk db h'.wal s.pos (p'.chunk i) (p'.calls i)) :
    Sound db h' p' := by
  have hreg : ∀ j, p'.coordinator.Registered j ↔ p.coordinator.Registered j := fun j => by
    simp only [Coordinator.Registered, he.chunkSeq]
  refine ⟨hs.valid.evolves he, fun j hj => ?_, fun j hj => ?_, fun q payload hq ref j hid => ?_, fun j hj => ?_,
    fun s' hs' j hj => ?_, fun s' hs' => ?_, fun s' hs' content hc => ?_⟩
  · have hpk := hs.pkCols j ((hreg j).mp hj)
    simpa only [Process.chunk, he.pkCols, he.table] using hpk
  · by_cases hji : j = i
    · exact (hreg j).mpr (hji ▸ hi)
    · rw [hcalls j hji] at hj
      exact (hreg j).mpr (hs.registered j hj)
  · rw [he.instanceID] at hid
    obtain ⟨hj, hmark⟩ := hmarks q payload hq ref j hid
    exact ⟨(hreg j).mpr hj, hmark⟩
  · rw [he.cfg]
    by_cases hji : j = i
    · exact hji ▸ hcall
    · rw [hchunks j hji, hcalls j hji]
      exact (hs.call j ((hreg j).mp hj)).mono hx
  · obtain ⟨s, hstr, hpos, -⟩ := hstream s' hs'
    rw [hpos]
    by_cases hji : j = i
    · subst hji
      exact hflight s hstr hj
    · rw [hchunks j hji, hcalls j hji]
      exact (hs.flight s hstr j (he.inflight j hj)).mono hx (hs.pos s hstr)
  · obtain ⟨s, hstr, hpos, -⟩ := hstream s' hs'
    rw [hpos]
    exact Nat.le_trans (hs.pos s hstr) hx.wal.length_le
  · obtain ⟨s, hstr, hpos, hwaiting⟩ := hstream s' hs'
    obtain ⟨q, hlt, hq⟩ := hs.waiting s hstr content (hwaiting content hc)
    exact ⟨q, hpos ▸ hlt, getElem?_of_grows hx.wal hq⟩

variable {c : Coordinator V} {call : Call V} {cfg : Config} {ch : ChunkInFlight V} {s : Stream V}
  {content : Option WatermarkPayload} {a : ProcessAct V}

/-- A step on one chunk that moves no watermark and shows the chunk nothing. -/
theorem Sound.onCall (hs : Sound db h p) (he : p.coordinator.Evolves c) {i : ℕ}
    (hi : p.coordinator.Registered i) (hchunks : ∀ j, j ≠ i → c.chunks j = p.chunk j)
    (hcollecting : (c.chunks i).collecting = (p.chunk i).collecting) (hseen : (c.chunks i).seen = (p.chunk i).seen)
    (hlow : call.low = (p.calls i).low) (hhigh : call.high = (p.calls i).high)
    (hread : call.read = (p.calls i).read) (hcall : CallOk db p.coordinator.cfg h (c.chunks i) call) :
    Sound db h { p with coordinator := c, calls := Function.update p.calls i call } := by
  refine hs.update (.refl h) he hi hchunks (fun j hj => Function.update_of_ne hj _ _)
    (fun s hstream => ⟨s, hstream, rfl, fun _ hc => hc⟩) (fun q payload hq ref j hid => ?_) ?_ (fun s hstream hin => ?_)
  · obtain ⟨hj, hmark⟩ := hs.marks q payload hq ref j hid
    by_cases hji : j = i
    · subst hji
      simp only [Function.update_self, hlow, hhigh]
      exact ⟨hj, hmark⟩
    · simp only [Function.update_of_ne hji]
      exact ⟨hj, hmark⟩
  · simp only [Function.update_self]
    exact hcall
  · have hf := hs.flight s hstream i (he.inflight i hin)
    have htable : (c.chunks i).table = (p.chunk i).table := he.table i
    constructor <;> simp only [Function.update_self, Process.chunk, hlow, hhigh, hread, hcollecting, hseen, htable]
    · exact hf.before
    · exact hf.during
    · exact hf.unread
    · exact hf.after

/-! ## `startChunk` -/

theorem Sound.register (hs : Sound db h p) (lane : ℕ) {ref : TableRef} {pkCols : List String}
    (hpk : pkCols = db.primaryKey ref) (cursor : List String) : Sound db h (p.register lane ref pkCols cursor) := by
  have hold : ∀ j, (p.register lane ref pkCols cursor).coordinator.Registered j → j ≠ p.coordinator.chunkSeq + 1 →
      p.coordinator.Registered j := fun j hj hne => ⟨Nat.le_of_lt_succ (Nat.lt_of_le_of_ne hj.1 hne), hj.2⟩
  have hnew : ∀ j, p.coordinator.Registered j → j ≠ p.coordinator.chunkSeq + 1 := fun j hj => by
    have := hj.1
    omega
  have hchunk : ∀ j, j ≠ p.coordinator.chunkSeq + 1 → (p.register lane ref pkCols cursor).chunk j = p.chunk j :=
    fun j hj => Function.update_of_ne hj _ _
  have hcall : ∀ j, j ≠ p.coordinator.chunkSeq + 1 → (p.register lane ref pkCols cursor).calls j = p.calls j :=
    fun j hj => Function.update_of_ne hj _ _
  have hregistered : ∀ j, p.coordinator.Registered j → (p.register lane ref pkCols cursor).coordinator.Registered j :=
    fun j hj => ⟨Nat.le_succ_of_le hj.1, hj.2⟩
  refine ⟨Coordinator.register_valid hs.valid ref pkCols, fun j hj => ?_, fun j hj => ?_, fun q payload hq ref' j hid => ?_,
    fun j hj => ?_, fun s hstream j hj => ?_, hs.pos, hs.waiting⟩
  · by_cases hj' : j = p.coordinator.chunkSeq + 1
    · subst hj'
      simpa [Process.register, Process.chunk, Coordinator.register] using hpk
    · rw [hchunk j hj']
      exact hs.pkCols j (hold j hj hj')
  · by_cases hj' : j = p.coordinator.chunkSeq + 1
    · exact ⟨Nat.le_of_eq hj', hj' ▸ Nat.succ_pos _⟩
    · rw [hcall j hj'] at hj
      exact hregistered j (hs.registered j hj)
  · obtain ⟨hj, hmark⟩ := hs.marks q payload hq ref' j hid
    rw [hcall j (hnew j hj)]
    exact ⟨hregistered j hj, hmark⟩
  · by_cases hj' : j = p.coordinator.chunkSeq + 1
    · subst hj'
      have hc : (p.register lane ref pkCols cursor).calls (p.coordinator.chunkSeq + 1) = { lane, cursor } :=
        Function.update_self ..
      have hch : ((p.register lane ref pkCols cursor).chunk (p.coordinator.chunkSeq + 1)).done = false := by
        simp [Process.register, Process.chunk, Coordinator.register]
      constructor <;> simp [hc, hch]
    · rw [hchunk j hj', hcall j hj']
      exact hs.call j (hold j hj hj')
  · by_cases hj' : j = p.coordinator.chunkSeq + 1
    · subst hj'
      constructor <;> simp [Process.register, Process.chunk, Coordinator.register]
    · rw [hchunk j hj', hcall j hj']
      have hmem : j ∈ p.coordinator.inflight := by
        simpa [Process.register, Coordinator.register, hj'] using hj
      exact hs.flight s hstream j hmem

theorem Sound.emitLow (hs : Sound db h p) {i : ℕ} (hstage : (p.calls i).stage = .low) (written ok : Bool) :
    Sound db (Process.write h written (p.watermark i "low")) (p.emitLow h i written ok) := by
  have hi : p.coordinator.Registered i := hs.registered i (by simp [hstage])
  have hc := hs.call i hi
  obtain ⟨hhigh, hread⟩ := hc.unread (by simp [hstage]) (by simp [hstage]) (by simp [hstage])
  have hlow := hc.unwritten hstage
  have hsel := hc.unselected (.inl hstage)
  have hcall : (p.emitLow h i written ok).calls i =
      { p.calls i with low := Process.writtenAt h written, stage := if ok then .select else .abandon } := Function.update_self ..
  have hcalls : ∀ j, j ≠ i → (p.emitLow h i written ok).calls j = p.calls j := fun j hj => Function.update_of_ne hj _ _
  refine hs.update (write_extends h written _) (.refl _) hi (fun _ _ => rfl) hcalls
    (fun s hstream => ⟨s, hstream, rfl, fun _ h => h⟩) (fun q payload hq ref j hid => ?_) ?_ (fun s hstream hin => ?_)
  · rcases mark_write hq with hq | ⟨hat, rfl⟩
    · obtain ⟨hj, hmark⟩ := hs.marks q payload hq ref j hid
      refine ⟨hj, ?_⟩
      by_cases hji : j = i
      · subst hji
        simp [hlow, hhigh] at hmark
      · rwa [hcalls j hji]
    · obtain rfl : i = j := chunkID_seq_inj ((hs.valid.id i hi).symm.trans hid)
      exact ⟨hi, .inl ⟨by rw [hcall]; exact hat, rfl⟩⟩
  · rw [hcall]
    constructor
    case low => exact fun l hl => getElem?_writtenAt hl
    case done =>
      intro hdone
      rcases hc.done hdone with ⟨s, chunk, hsel', -⟩ | ⟨low, read, -, hread', -⟩
      · rw [hsel] at hsel'
        cases hsel'
      · rw [hread] at hread'
        cases hread'
    all_goals simp [hsel, hhigh, hread]
    all_goals cases ok <;> simp
  · have hf := hs.flight s hstream i hin
    rw [hcall]
    constructor
    case before => exact fun _ => hf.before fun l hl => by rw [hlow] at hl; cases hl
    case during =>
      intro l hl hlt
      have hpos := hs.pos s hstream
      rw [writtenAt_eq hl] at hlt
      omega
    case unread => exact fun _ => hread
    case after => simp [hhigh]

/-- A call that gives up keeps its watermarks. -/
theorem CallOk.gaveUp (hc : CallOk db cfg h ch call) {stage : Stage}
    (hstage : stage = .abandon ∨ stage = .failed) : CallOk db cfg h ch { call with stage } := by
  have hlow : stage ≠ .low := by rcases hstage with rfl | rfl <;> decide
  have hselect : stage ≠ .select := by rcases hstage with rfl | rfl <;> decide
  have hhigh : stage ≠ .high := by rcases hstage with rfl | rfl <;> decide
  have hreturned : stage ≠ .returned := by rcases hstage with rfl | rfl <;> decide
  exact {
    low := hc.low
    high := hc.high
    unwritten := fun hs => absurd hs hlow
    unselected := fun hs => hs.elim (absurd · hlow) (absurd · hselect)
    selection := hc.selection
    published := fun hs => hs.elim (absurd · hhigh) (absurd · hreturned)
    sent := fun _ _ => .inr hstage
    selected := hc.selected
    pending := fun s chunk hsel hs => hc.pending s chunk hsel (.inr (hs.resolve_left hhigh))
    read := hc.read
    done := hc.done }

theorem Sound.select (hs : Sound db h p) {i : ℕ} (hstage : (p.calls i).stage = .select) {answer : Option (ℕ × Chunk V)}
    (hanswer : ∀ s chunk, answer = some (s, chunk) → ∃ l, (p.calls i).low = some l ∧ l < s ∧ s ≤ h.wal.length ∧
      db.FirstRows (db.source (h.wal.take s)) (p.chunk i).table (p.calls i).cursor p.coordinator.cfg.chunkSize chunk) :
    Sound db h (p.select i answer) := by
  have hi : p.coordinator.Registered i := hs.registered i (by simp [hstage])
  have hc := hs.call i hi
  obtain ⟨hhigh, hread⟩ := hc.unread (by simp [hstage]) (by simp [hstage]) (by simp [hstage])
  cases answer with
  | none => exact hs.onCall (.refl _) hi (fun _ _ => rfl) rfl rfl rfl rfl rfl (hc.gaveUp (.inl rfl))
  | some selection =>
    refine hs.onCall (.refl _) hi (fun _ _ => rfl) rfl rfl rfl rfl rfl ?_
    constructor
    case low => exact hc.low
    case selection =>
      intro s chunk hsel
      exact hanswer s chunk hsel
    case done =>
      intro hdone
      have hsel := hc.unselected (.inr hstage)
      rcases hc.done hdone with ⟨s, chunk, hsel', -⟩ | ⟨low, read, -, hread', -⟩
      · rw [hsel] at hsel'
        cases hsel'
      · rw [hread] at hread'
        cases hread'
    all_goals simp [hhigh, hread]

theorem Sound.publish (hs : Sound db h p) {i : ℕ} (hstage : (p.calls i).stage = .publish) {s : ℕ} {selected : Chunk V}
    (hsel : (p.calls i).selection = some (s, selected)) : Sound db h (p.publish i selected) := by
  have hi : p.coordinator.Registered i := hs.registered i (by simp [hstage])
  have hc := hs.call i hi
  obtain ⟨hhigh, hread⟩ := hc.unread (by simp [hstage]) (by simp [hstage]) (by simp [hstage])
  have hchunk := p.coordinator.publish_self i selected
  refine hs.onCall (p.coordinator.publish_evolves i selected) hi (fun j hj => p.coordinator.publish_of_ne selected hj)
    (by rw [hchunk]; rfl) (by rw [hchunk]; rfl) rfl rfl rfl ?_
  rw [hchunk]
  constructor
  case low => exact hc.low
  case selection => exact hc.selection
  case published => exact fun _ => ⟨s, selected, hsel, rfl, rfl⟩
  case pending =>
    intro s' chunk hsel' _ _
    rw [hsel] at hsel'
    cases hsel'
    rfl
  case done =>
    intro hdone
    by_cases hempty : selected.rows.length = 0
    · exact .inl ⟨s, selected, hsel, List.length_eq_zero_iff.mp hempty⟩
    · exact hc.done (by simpa [hempty, Process.chunk] using hdone)
  all_goals simp [hhigh, hread]
  all_goals split <;> simp

/-- A chunk leaves the map. -/
theorem Sound.evolves (hs : Sound db h p) (he : p.coordinator.Evolves c)
    (hchunks : c.chunks = p.coordinator.chunks) : Sound db h { p with coordinator := c } := by
  have hreg : ∀ j, c.Registered j ↔ p.coordinator.Registered j := fun j => by
    simp only [Coordinator.Registered, he.chunkSeq]
  have hchunk : ∀ j, ({ p with coordinator := c } : Process V).chunk j = p.chunk j := fun j => congrFun hchunks j
  refine ⟨hs.valid.evolves he, fun j hj => ?_, fun j hj => (hreg j).mpr (hs.registered j hj), fun q payload hq ref j hid => ?_,
    fun j hj => ?_, fun s hstream j hj => ?_, hs.pos, hs.waiting⟩
  · rw [hchunk]
    exact hs.pkCols j ((hreg j).mp hj)
  · obtain ⟨hj, hmark⟩ := hs.marks q payload hq ref j (he.instanceID ▸ hid)
    exact ⟨(hreg j).mpr hj, hmark⟩
  · rw [hchunk]
    simp only [he.cfg]
    exact hs.call j ((hreg j).mp hj)
  · rw [hchunk]
    exact hs.flight s hstream j (he.inflight j hj)

theorem Sound.abandon (hs : Sound db h p) (chunks : List ℕ) :
    Sound db h { p with coordinator := p.coordinator.abandon chunks } :=
  hs.evolves (p.coordinator.abandon_evolves chunks) (by rw [Coordinator.abandon_eq])

theorem Sound.fail (hs : Sound db h p) {i : ℕ} (hstage : (p.calls i).stage = .abandon) : Sound db h (p.fail i) := by
  have hi : p.coordinator.Registered i := hs.registered i (by simp [hstage])
  have hchunks : (p.coordinator.abandon [i]).chunks = p.coordinator.chunks := by rw [Coordinator.abandon_eq]
  refine hs.onCall (p.coordinator.abandon_evolves [i]) hi (fun j _ => congrFun hchunks j) (by rw [hchunks]; rfl)
    (by rw [hchunks]; rfl) rfl rfl rfl ?_
  rw [hchunks]
  exact (hs.call i hi).gaveUp (.inr rfl)

theorem Sound.emitHigh (hs : Sound db h p) {i : ℕ} (hstage : (p.calls i).stage = .high) (written ok : Bool) :
    Sound db (Process.write h written (p.watermark i "high")) (p.emitHigh h i written ok) := by
  have hi : p.coordinator.Registered i := hs.registered i (by simp [hstage])
  have hc := hs.call i hi
  obtain ⟨hhigh, hread⟩ := hc.unread (by simp [hstage]) (by simp [hstage]) (by simp [hstage])
  obtain ⟨s, chunk, hsel, hcount, hcursor⟩ := hc.published (.inl hstage)
  obtain ⟨l, hl, hls, hslen, hrows⟩ := hc.selection s chunk hsel
  have hx := write_extends h written (p.watermark i "high")
  have hcall : (p.emitHigh h i written ok).calls i =
      { p.calls i with high := Process.writtenAt h written, stage := if ok then .returned else .abandon } :=
    Function.update_self ..
  have hcalls : ∀ j, j ≠ i → (p.emitHigh h i written ok).calls j = p.calls j := fun j hj => Function.update_of_ne hj _ _
  have hc' := hc.mono hx
  refine hs.update hx (.refl _) hi (fun _ _ => rfl) hcalls
    (fun s hstream => ⟨s, hstream, rfl, fun _ h => h⟩) (fun q payload hq ref j hid => ?_) ?_ (fun s' hstream hin => ?_)
  · rcases mark_write hq with hq | ⟨hat, rfl⟩
    · obtain ⟨hj, hmark⟩ := hs.marks q payload hq ref j hid
      refine ⟨hj, ?_⟩
      by_cases hji : j = i
      · subst hji
        rw [hcall]
        exact .inl (hmark.resolve_right fun hmark => by rw [hhigh] at hmark; cases hmark.1)
      · rwa [hcalls j hji]
    · obtain rfl : i = j := chunkID_seq_inj ((hs.valid.id i hi).symm.trans hid)
      exact ⟨hi, .inr ⟨by rw [hcall]; exact hat, rfl⟩⟩
  · rw [hcall]
    constructor
    case low => exact hc'.low
    case high => exact fun q hq => getElem?_writtenAt hq
    case selection => exact hc'.selection
    case published => exact fun _ => ⟨s, chunk, hsel, hcount, hcursor⟩
    case selected => exact fun q hq => ⟨s, chunk, hsel, writtenAt_eq hq ▸ hslen⟩
    case pending => exact fun s chunk hsel _ => hc.pending s chunk hsel (.inl hstage)
    case done => exact hc'.done
    all_goals simp [hread]
    all_goals cases ok <;> simp
  · have hf := (hs.flight s' hstream i hin).mono hx (hs.pos s' hstream)
    have hpos := hs.pos s' hstream
    rw [hcall]
    constructor
    case before => exact hf.before
    case during =>
      intro l hl hlt _
      exact hf.during l hl hlt fun q hq => by rw [hhigh] at hq; cases hq
    case unread => exact fun _ => hread
    case after =>
      intro q hq hlt
      rw [writtenAt_eq hq] at hlt
      omega

/-! ## The session -/

/-- A session starts or ends with no chunk in flight. -/
theorem Sound.restream (hs : Sound db h p) (he : p.coordinator.Evolves c)
    (hchunks : c.chunks = p.coordinator.chunks) (hempty : c.inflight = []) {stream : Option (Stream V)}
    (hpos : ∀ s, stream = some s → s.pos ≤ h.wal.length ∧ s.waiting = []) :
    Sound db h { p with coordinator := c, stream } := by
  have hs' := hs.evolves he hchunks
  refine ⟨hs'.valid, hs'.pkCols, hs'.registered, hs'.marks, hs'.call, fun s _ i hi => ?_, fun s hstream => (hpos s hstream).1,
    fun s hstream content hc => ?_⟩
  · simp only [hempty] at hi
    cases hi
  · rw [(hpos s hstream).2] at hc
    cases hc

theorem Sound.up (hs : Sound db h p) {pos : ℕ} (hpos : pos ≤ h.wal.length) :
    Sound db h { p with coordinator := p.coordinator.onStreamStart, stream := some { pos } } := by
  obtain ⟨he, hchunks, hempty⟩ := p.coordinator.onStreamStart_spec
  exact hs.restream he hchunks hempty fun s hstream => by cases hstream; exact ⟨hpos, rfl⟩

theorem Sound.down (hs : Sound db h p) :
    Sound db h { p with coordinator := p.coordinator.onStreamStop, stream := none } := by
  obtain ⟨he, hchunks, hempty⟩ := p.coordinator.onStreamStop_spec
  exact hs.restream he hchunks hempty fun s hstream => nomatch hstream

/-- The next log entry is not a watermark of the chunk. -/
theorem CallOk.not_mark (hc : CallOk db cfg h ch call) {q : ℕ}
    (hq : ∀ payload, h.wal[q]? = some (.mark (some payload)) → payload.chunk ≠ ch.id) :
    call.low ≠ some q ∧ call.high ≠ some q :=
  ⟨fun hl => hq _ (hc.low q hl) rfl, fun hh => hq _ (hc.high q hh) rfl⟩

/-- Past an entry that is neither a change nor a watermark of the chunk nothing
is new. -/
theorem FlightOk.skip {pos : ℕ} {item : Item V}
    (hf : FlightOk db h.wal pos ch call) (hc : CallOk db cfg h ch call) (hitem : h.wal[pos]? = some item)
    (hchange : item.change? = none)
    (hq : ∀ payload, item = .mark (some payload) → payload.chunk ≠ ch.id) : FlightOk db h.wal (pos + 1) ch call := by
  obtain ⟨hlow, hhigh⟩ := hc.not_mark (q := pos) fun payload hp => hq payload (Option.some.inj (hitem.symm.trans hp))
  constructor
  case before =>
    intro hl
    exact hf.before fun l hcl => Nat.le_of_succ_le (hl l hcl)
  case during =>
    intro l hl hlt hh
    have hlt' : l < pos := Nat.lt_of_le_of_ne (Nat.le_of_lt_succ hlt) fun heq => hlow (heq ▸ hl)
    rw [between_succ hlt' hitem, hchange, Option.toList_none, List.append_nil]
    exact hf.during l hl hlt' fun q hq => Nat.le_of_succ_le (hh q hq)
  case unread => exact fun hh => hf.unread fun q hq => Nat.le_of_succ_le (hh q hq)
  case after =>
    intro q hq hlt
    exact hf.after q hq (Nat.lt_of_le_of_ne (Nat.le_of_lt_succ hlt) fun heq => hhigh (heq ▸ hq))

/-- The session moves on by one entry, and no watermark moves. -/
theorem Sound.advance (hs : Sound db h p) (hstream : p.stream = some s) (hpos : s.pos < h.wal.length)
    (he : p.coordinator.Evolves c) {calls : ℕ → Call V} (hcalls : ∀ j, ∃ read, calls j = { p.calls j with read })
    (hcall : ∀ j, p.coordinator.Registered j → CallOk db p.coordinator.cfg h (c.chunks j) (calls j))
    (hflight : ∀ j ∈ c.inflight, FlightOk db h.wal (s.pos + 1) (c.chunks j) (calls j)) {emitted : List (CDCEvent V)}
    {waiting : List (Option WatermarkPayload)}
    (hwaiting : ∀ content ∈ waiting, content ∈ s.waiting ∨ h.wal[s.pos]? = some (.mark content)) :
    Sound db h { coordinator := c, calls, stream := some { pos := s.pos + 1, emitted, waiting } } := by
  have hreg : ∀ j, c.Registered j ↔ p.coordinator.Registered j := fun j => by
    simp only [Coordinator.Registered, he.chunkSeq]
  refine ⟨hs.valid.evolves he, fun j hj => ?_, fun j hj => ?_, fun q payload hq ref j hid => ?_, fun j hj => ?_,
    fun s' hs' j hj => ?_, fun s' hs' => ?_, fun s' hs' content hc => ?_⟩
  · simpa only [Process.chunk, he.pkCols, he.table] using hs.pkCols j ((hreg j).mp hj)
  · obtain ⟨read, hread⟩ := hcalls j
    simp only [hread] at hj
    exact (hreg j).mpr (hs.registered j hj)
  · obtain ⟨hj, hmark⟩ := hs.marks q payload hq ref j (he.instanceID ▸ hid)
    obtain ⟨read, hread⟩ := hcalls j
    simp only [hread]
    exact ⟨(hreg j).mpr hj, hmark⟩
  · simp only [he.cfg]
    exact hcall j ((hreg j).mp hj)
  · cases hs'
    exact hflight j hj
  · cases hs'
    exact hpos
  · cases hs'
    rcases hwaiting content hc with hc | hitem
    · obtain ⟨q, hlt, hq⟩ := hs.waiting s hstream content hc
      exact ⟨q, Nat.lt_succ_of_lt hlt, hq⟩
    · exact ⟨s.pos, Nat.lt_succ_self _, hitem⟩

theorem Sound.takeCommit (hs : Sound db h p) (hstream : p.stream = some s) (hitem : h.wal[s.pos]? = some .commit)
    (lsn : String) (now : ℕ) : Sound db h (p.take s lsn now .commit) :=
  hs.advance hstream (lt_length hitem) (.refl _) (fun _ => ⟨_, rfl⟩) hs.call
    (fun j hj => (hs.flight s hstream j hj).skip (hs.call j (hs.valid.inflight j hj)) hitem rfl fun _ hp => nomatch hp)
    fun _ hc => .inl hc

theorem Sound.takeChange (hs : Sound db h p) (hstream : p.stream = some s) {event : CDCEvent V}
    (hitem : h.wal[s.pos]? = some (.change event)) (lsn : String) (now : ℕ) : Sound db h (p.take s lsn now (.change event)) := by
  have hframe : ∀ j, ∃ seen, (p.coordinator.observeEvent event).chunks j = { p.chunk j with seen } :=
    fun j => @Coordinator.observe_frame V event _ none p.coordinator.inflight p.coordinator.chunks j
  refine hs.advance hstream (lt_length hitem) (p.coordinator.observeEvent_evolves event) (fun _ => ⟨_, rfl⟩)
    (fun j hj => ?_) (fun j hj => ?_) fun _ hc => .inl hc
  · obtain ⟨seen, hseen⟩ := hframe j
    rw [hseen]
    exact (hs.call j hj).observed (p.chunk j).collecting seen
  · have hf := hs.flight s hstream j hj
    have hc := hs.call j (hs.valid.inflight j hj)
    obtain ⟨hlow, hhigh⟩ := hc.not_mark (q := s.pos) fun payload hp => by
      rw [hitem] at hp
      cases hp
    obtain ⟨seen, hseen⟩ := hframe j
    -- a chunk that does not collect is left as it was
    have hidle : (p.chunk j).collecting = false → (p.coordinator.observeEvent event).chunks j = p.chunk j :=
      fun hcoll => Coordinator.observe_of_not_collects none _ _ fun hcs => by
        have hon : (p.chunk j).collecting = true := hcs.1
        rw [hcoll] at hon
        cases hon
    constructor
    case before =>
      intro hl
      obtain ⟨hcoll, hnil⟩ := hf.before fun l hcl => Nat.le_of_succ_le (hl l hcl)
      rw [hidle hcoll]
      exact ⟨hcoll, hnil⟩
    case during =>
      intro l hl hlt hh
      have hlt' : l < s.pos := Nat.lt_of_le_of_ne (Nat.le_of_lt_succ hlt) fun heq => hlow (heq ▸ hl)
      obtain ⟨hcoll, hkeys⟩ := hf.during l hl hlt' fun q hq => Nat.le_of_succ_le (hh q hq)
      refine ⟨by rw [hseen]; exact hcoll, fun key => ?_⟩
      have hspec := @Coordinator.observe_spec V event (db.primaryKey (eventRef event)) _ none p.coordinator.inflight
        p.coordinator.chunks (.inl rfl) (fun j hj ht => ht ▸ hs.pkCols j (hs.valid.inflight j hj)) j key
      have htable : ((p.coordinator.observeEvent event).chunks j).table = (p.chunk j).table := by rw [hseen]
      rw [between_succ hlt' hitem, db.observed_append, htable, ← hkeys key]
      refine hspec.trans (or_congr_right ⟨fun hnew => ?_, fun hnew => ?_⟩)
      · obtain ⟨-, hcs, hkey⟩ := hnew
        exact ⟨event, by simp [Item.change?], hcs.2, hcs.2 ▸ hkey⟩
      · obtain ⟨event', hevent, href, hkey⟩ := hnew
        obtain rfl : event' = event := by simpa [Item.change?] using hevent
        exact ⟨hj, ⟨hcoll, href⟩, href ▸ hkey⟩
    case unread => exact fun hh => hf.unread fun q hq => Nat.le_of_succ_le (hh q hq)
    case after =>
      intro q hq hlt
      obtain ⟨hcoll, hread⟩ := hf.after q hq (Nat.lt_of_le_of_ne (Nat.le_of_lt_succ hlt) fun heq => hhigh (heq ▸ hq))
      rw [hidle hcoll]
      exact ⟨hcoll, hread⟩

/-- A chunk in flight whose watermark is the next entry. -/
theorem Sound.own_mark (hs : Sound db h p) {q : ℕ} {payload : WatermarkPayload} (hq : h.wal[q]? = some (.mark (some payload)))
    {i : ℕ} (hi : p.coordinator.Registered i) (hid : payload.chunk = (p.chunk i).id) :
    payload.slot = p.coordinator.cfg.slotName ∧
      ((p.calls i).low = some q ∧ payload.mark = "low" ∨ (p.calls i).high = some q ∧ payload.mark = "high") := by
  have hmark := (hs.marks q payload hq _ i (hid.trans (hs.valid.id i hi))).2
  have hc := hs.call i hi
  refine ⟨?_, hmark⟩
  rcases hmark with ⟨hl, -⟩ | ⟨hh, -⟩
  · have hl' := hc.low q hl
    rw [hq] at hl'
    cases hl'
    rfl
  · have hh' := hc.high q hh
    rw [hq] at hh'
    cases hh'
    rfl

theorem Sound.takeForeign (hs : Sound db h p) (hstream : p.stream = some s)
    (hitem : h.wal[s.pos]? = some (.mark content))
    (hne : ∀ i ∈ p.coordinator.inflight, ∀ payload, content = some payload → payload.chunk ≠ (p.chunk i).id)
    (lsn : String) (now : ℕ) : Sound db h (p.take s lsn now (.mark content)) := by
  have hhandle : p.coordinator.handleWatermark lsn now content = ([], p.coordinator) :=
    Coordinator.handleWatermark_foreign hs.valid (fun i hi mark hc => absurd rfl (hne i hi _ hc)) lsn now
  have hchunk : p.highChunk content = none := by
    cases content with
    | none => rfl
    | some payload =>
      simp only [Process.highChunk, Option.bind_some]
      split
      · cases hl : p.coordinator.lookup payload.chunk with
        | none => rfl
        | some i =>
          obtain ⟨hi, hid⟩ := (Coordinator.lookup_eq_some hs.valid).mp hl
          exact absurd hid.symm (hne i hi payload rfl)
      · rfl
  simp only [Process.take, Process.handleWatermark, hhandle, hchunk]
  refine hs.advance hstream (lt_length hitem) (.refl _) (fun _ => ⟨_, rfl⟩) hs.call (fun j hj => ?_) fun c hc => ?_
  · refine (hs.flight s hstream j hj).skip (hs.call j (hs.valid.inflight j hj)) hitem rfl fun payload hp => ?_
    cases hp
    exact hne j hj payload rfl
  · rcases List.mem_append.mp hc with hc | hc
    · exact .inl hc
    · rw [List.mem_singleton.mp hc]
      exact .inr hitem

theorem Sound.takeLow (hs : Sound db h p) (hstream : p.stream = some s) {i : ℕ}
    (hi : i ∈ p.coordinator.inflight) (hitem : h.wal[s.pos]? = some (.mark (some (p.watermark i "low"))))
    (hlow : (p.calls i).low = some s.pos) (lsn : String) (now : ℕ) :
    Sound db h (p.take s lsn now (.mark (some (p.watermark i "low")))) := by
  have hhandle := Coordinator.handleWatermark_low hs.valid hi lsn now
  have hchunk : p.highChunk (some (p.watermark i "low")) = none := rfl
  have hevolves := p.coordinator.handleWatermark_evolves lsn now (some (p.watermark i "low"))
  simp only [Process.take, Process.handleWatermark, hchunk]
  simp only [Process.watermark, Process.chunk, hhandle] at hevolves ⊢
  refine hs.advance hstream (lt_length hitem) hevolves (fun _ => ⟨_, rfl⟩) (fun j hj => ?_) (fun j hj => ?_) fun c hc => ?_
  · by_cases hji : j = i
    · subst hji
      simp only [Coordinator.setChunk, Function.update_self]
      exact (hs.call j hj).observed true (p.chunk j).seen
    · simp only [Coordinator.setChunk, Function.update_of_ne hji]
      exact hs.call j hj
  · have hf := hs.flight s hstream j hj
    have hc := hs.call j (hs.valid.inflight j hj)
    by_cases hji : j = i
    · subst hji
      simp only [Coordinator.setChunk, Function.update_self]
      have hbefore := hf.before fun l hl => by rw [hlow] at hl; cases hl; exact Nat.le_refl _
      constructor
      case before =>
        intro hl
        exact absurd (hl s.pos hlow) (Nat.not_succ_le_self _)
      case during =>
        intro l hl _ _
        rw [hlow] at hl
        cases hl
        refine ⟨rfl, fun key => ?_⟩
        have hnil : (p.coordinator.chunks j).seen = [] := hbefore.2
        simp [hnil, between_self, Database.Observed]
      case unread => exact fun hh => hf.unread fun q hq => Nat.le_of_succ_le (hh q hq)
      case after =>
        intro q hq hlt
        -- the high watermark comes after the snapshot, and that after the low one
        obtain ⟨s', chunk, hsel, hsq⟩ := hc.selected q hq
        obtain ⟨l, hl, hls, -⟩ := hc.selection s' chunk hsel
        rw [hlow] at hl
        cases hl
        omega
    · simp only [Coordinator.setChunk, Function.update_of_ne hji]
      refine hf.skip hc hitem rfl fun payload hp => ?_
      cases hp
      exact fun hid => hji (hs.valid.id_inj (hs.valid.inflight j hj) (hs.valid.inflight i hi) hid.symm)
  · rcases List.mem_append.mp hc with hc | hc
    · exact .inl hc
    · rw [List.mem_singleton.mp hc]
      exact .inr hitem

/-- When the high watermark of a chunk in flight is next, the chunk still has
the rows it selected, and has seen what lies between its watermarks. -/
theorem Sound.at_high (hs : Sound db h p) (hstream : p.stream = some s) {i : ℕ}
    (hi : i ∈ p.coordinator.inflight) (hhigh : (p.calls i).high = some s.pos) :
    ∃ l snap chunk, (p.calls i).low = some l ∧ (p.calls i).selection = some (snap, chunk) ∧ l < snap ∧ snap ≤ s.pos ∧
      (p.calls i).read = none ∧ (p.chunk i).pending = chunk.rows ∧
      ∀ key, key ∈ (p.chunk i).seen ↔ db.Observed (between h.wal (l + 1) s.pos) (p.chunk i).table key := by
  have hc := hs.call i (hs.valid.inflight i hi)
  have hf := hs.flight s hstream i hi
  obtain ⟨snap, chunk, hsel, hsnap⟩ := hc.selected s.pos hhigh
  obtain ⟨l, hl, hls, -⟩ := hc.selection snap chunk hsel
  have hahead : ∀ q, (p.calls i).high = some q → s.pos ≤ q := fun q hq => by
    rw [hhigh] at hq
    cases hq
    exact Nat.le_refl _
  have hunread := hf.unread hahead
  exact ⟨l, snap, chunk, hl, hsel, hls, hsnap, hunread, hc.pending snap chunk hsel (.inr (by simp [hhigh])) hunread,
    (hf.during l hl (by omega) hahead).2⟩

theorem Sound.takeHigh (hs : Sound db h p) (hstream : p.stream = some s) {i : ℕ}
    (hi : i ∈ p.coordinator.inflight) (hitem : h.wal[s.pos]? = some (.mark (some (p.watermark i "high"))))
    (hhigh : (p.calls i).high = some s.pos) (lsn : String) (now : ℕ) :
    Sound db h (p.take s lsn now (.mark (some (p.watermark i "high")))) := by
  have hhandle := Coordinator.handleWatermark_high hs.valid hi lsn now
  have hchunk : p.highChunk (some (p.watermark i "high")) = some i := by
    have hl : p.coordinator.lookup (p.chunk i).id = some i := (Coordinator.lookup_eq_some hs.valid).mpr ⟨hi, rfl⟩
    simpa [Process.highChunk, Process.watermark] using hl
  have hevolves := p.coordinator.handleWatermark_evolves lsn now (some (p.watermark i "high"))
  simp only [Process.take, Process.handleWatermark, hchunk]
  simp only [Process.watermark, Process.chunk, hhandle] at hevolves ⊢
  have hc := hs.call i (hs.valid.inflight i hi)
  obtain ⟨l, snap, chunk, hl, hsel, hls, hsnap, hunread, hpending, hseen⟩ := hs.at_high hstream hi hhigh
  refine hs.advance hstream (lt_length hitem) hevolves (fun j => ?_) (fun j hj => ?_) (fun j hj => ?_) fun c hc => ?_
  · by_cases hji : j = i
    · subst hji
      exact ⟨_, Function.update_self ..⟩
    · exact ⟨(p.calls j).read, Function.update_of_ne hji _ _⟩
  · by_cases hji : j = i
    · subst hji
      simp only [Coordinator.setChunk, Function.update_self]
      refine { (hc.observed false (p.chunk j).seen) with pending := ?_, read := ?_, done := ?_ }
      · intro _ _ _ _ hread
        cases hread
      · intro reads hreads
        cases hreads
        refine ⟨l, snap, chunk, s.pos, hl, hsel, hhigh, fun row hrow => ?_⟩
        by_cases hkey : row.key ∈ (p.chunk j).seen
        · exact .inr ((hseen row.key).mp hkey)
        · refine .inl ⟨_, List.mem_map.mpr ⟨row, ?_, rfl⟩, lsn, now, _, rfl⟩
          rw [Coordinator.unseen, List.mem_filter]
          exact ⟨hpending ▸ hrow, by simpa [Process.chunk] using hkey⟩
      · intro hdone
        rcases hc.done hdone with hempty | ⟨low, read, -, hread, -⟩
        · exact .inl hempty
        · rw [hunread] at hread
          cases hread
    · simp only [Coordinator.setChunk, Function.update_of_ne hji]
      exact hs.call j hj
  · have hf := hs.flight s hstream j hj
    by_cases hji : j = i
    · subst hji
      simp only [Coordinator.setChunk, Function.update_self]
      constructor
      case before =>
        intro hlow
        have := hlow l hl
        omega
      case during =>
        intro l _ _ hq
        exact absurd (hq s.pos hhigh) (Nat.not_succ_le_self _)
      case unread => exact fun hq => absurd (hq s.pos hhigh) (Nat.not_succ_le_self _)
      case after =>
        intro q hq _
        exact ⟨rfl, by simp⟩
    · simp only [Coordinator.setChunk, Function.update_of_ne hji]
      refine hf.skip (hs.call j (hs.valid.inflight j hj)) hitem rfl fun payload hp => ?_
      cases hp
      exact fun hid => hji (hs.valid.id_inj (hs.valid.inflight j hj) (hs.valid.inflight i hi) hid.symm)
  · rcases List.mem_append.mp hc with hc | hc
    · exact .inl hc
    · rw [List.mem_singleton.mp hc]
      exact .inr hitem

theorem Sound.takeMark (hs : Sound db h p) (hstream : p.stream = some s)
    (hitem : h.wal[s.pos]? = some (.mark content)) (lsn : String) (now : ℕ) : Sound db h (p.take s lsn now (.mark content)) := by
  by_cases hown : ∃ i ∈ p.coordinator.inflight, ∃ payload, content = some payload ∧ payload.chunk = (p.chunk i).id
  · obtain ⟨i, hi, payload, rfl, hid⟩ := hown
    obtain ⟨hslot, hmark⟩ := hs.own_mark hitem (hs.valid.inflight i hi) hid
    obtain ⟨slot, chunk, mark⟩ := payload
    dsimp only at hid hslot hmark
    subst hid hslot
    rcases hmark with ⟨hlow, rfl⟩ | ⟨hhigh, rfl⟩
    · exact hs.takeLow hstream hi hitem hlow lsn now
    · exact hs.takeHigh hstream hi hitem hhigh lsn now
  · exact hs.takeForeign hstream hitem (fun i hi payload hc hid => hown ⟨i, hi, payload, hc, hid⟩) lsn now

theorem Sound.take (hs : Sound db h p) (hstream : p.stream = some s) {item : Item V}
    (hitem : h.wal[s.pos]? = some item) (lsn : String) (now : ℕ) : Sound db h (p.take s lsn now item) := by
  cases item with
  | change event => exact hs.takeChange hstream hitem lsn now
  | commit => exact hs.takeCommit hstream hitem lsn now
  | mark content => exact hs.takeMark hstream hitem lsn now

omit [ToString V] in
theorem highChunk_eq_some {i : ℕ} (hi : p.highChunk content = some i) :
    ∃ payload, content = some payload ∧ payload.mark = "high" ∧ p.coordinator.lookup payload.chunk = some i := by
  cases content with
  | none => cases hi
  | some payload =>
    simp only [Process.highChunk, Option.bind_some] at hi
    split at hi
    · rename_i hmark
      exact ⟨payload, rfl, hmark, hi⟩
    · cases hi

omit [ToString V] in
theorem watermarkDelivered_eq (p : Process V) (content : Option WatermarkPayload) :
    p.coordinator.watermarkDelivered content = ((p.highChunk content).map p.coordinator.finishChunk).getD p.coordinator := by
  cases content with
  | none => rfl
  | some payload =>
    simp only [Coordinator.watermarkDelivered, Process.highChunk, Option.bind_some, ne_eq, ite_not]
    split
    · cases p.coordinator.lookup payload.chunk <;> rfl
    · rfl

omit [ToString V] in
theorem report_extends (h : History V) (p : Process V) (content : Option WatermarkPayload) : h.Extends (p.report h content) := by
  unfold Process.report
  split
  · exact ⟨List.prefix_rfl, fun r hr => List.mem_append_left _ hr⟩
  · exact .refl h

theorem Sound.delivered (hs : Sound db h p) (hstream : p.stream = some s) {n : ℕ}
    (hcontent : s.waiting[n]? = some content) : Sound db (p.report h content) (p.delivered s n content) := by
  have hwaiting : ∀ s', (p.delivered s n content).stream = some s' →
      ∃ s, p.stream = some s ∧ s'.pos = s.pos ∧ ∀ content ∈ s'.waiting, content ∈ s.waiting := by
    intro s' hs'
    cases hs'
    exact ⟨s, hstream, rfl, fun c hc => List.mem_of_mem_eraseIdx hc⟩
  cases hhigh : p.highChunk content with
  | none =>
    have hsame : p.coordinator.watermarkDelivered content = p.coordinator := by
      rw [watermarkDelivered_eq, hhigh]
      rfl
    simp only [Process.report, Process.delivered, hhigh, hsame]
    refine ⟨hs.valid, hs.pkCols, hs.registered, hs.marks, hs.call, fun s' hs' => ?_, fun s' hs' => ?_, fun s' hs' c hc => ?_⟩
    · cases hs'
      exact hs.flight s hstream
    · cases hs'
      exact hs.pos s hstream
    · cases hs'
      exact hs.waiting s hstream c (List.mem_of_mem_eraseIdx hc)
  | some i =>
    obtain ⟨payload, rfl, hmark, hl⟩ := highChunk_eq_some hhigh
    obtain ⟨hi, hid⟩ := (Coordinator.lookup_eq_some hs.valid).mp hl
    have hreg := hs.valid.inflight i hi
    have hc := hs.call i hreg
    have hfinish : p.coordinator.watermarkDelivered (some payload) = p.coordinator.finishChunk i := by
      rw [watermarkDelivered_eq, hhigh]
      rfl
    -- the watermark came by in this session, so the chunk's rows were emitted
    obtain ⟨q, hlt, hq⟩ := hs.waiting s hstream _ (List.mem_of_getElem? hcontent)
    have hsent : (p.calls i).high = some q := by
      rcases (hs.own_mark hq hreg hid.symm).2 with ⟨-, hlow⟩ | ⟨hsent, -⟩
      · rw [hmark] at hlow
        exact absurd hlow (by decide)
      · exact hsent
    obtain ⟨read, hread⟩ := Option.ne_none_iff_exists'.mp ((hs.flight s hstream i hi).after q hsent hlt).2
    obtain ⟨l, -, -, -, hlow, -⟩ := hc.read read hread
    have hchunk : (p.delivered s n (some payload)).chunk i = { p.chunk i with done := true } := by
      simp [Process.delivered, Process.chunk, hfinish, Coordinator.finishChunk, Coordinator.setChunk]
    have hx := report_extends h p (some payload)
    refine hs.update hx (p.coordinator.watermarkDelivered_evolves (some payload)) hreg (fun j hj => ?_) (fun _ _ => rfl)
      hwaiting ?_ ?_ (fun s' hs' hin => ?_)
    · simp [Process.delivered, Process.chunk, hfinish, Coordinator.finishChunk, Coordinator.setChunk, Coordinator.delete, hj]
    · simp only [Process.report, hhigh]
      exact hs.marks
    · rw [hchunk]
      refine { hc.mono hx with done := fun _ => .inr ⟨l, read, hlow, hread, ?_⟩ }
      simp [Process.report, hhigh, hlow, hread]
    · have hf := (hs.flight s' hs' i hi).mono hx (hs.pos s' hs')
      rw [hchunk]
      exact ⟨hf.before, hf.during, hf.unread, hf.after⟩

/-! ## Every step -/

/-- What the database is assumed to answer: the table's key columns, and for a
select the first rows as of a point after the low watermark. -/
def Process.Assumed (db : Database V) (h : History V) (p : Process V) : ProcessAct V → Prop
  | .register _ ref pkCols _ => pkCols = db.primaryKey ref
  | .select i (some (s, chunk)) => ∃ l, (p.calls i).low = some l ∧ l < s ∧ Database.Boundary h.wal s ∧
      db.FirstRows (db.source (h.wal.take s)) (p.chunk i).table (p.calls i).cursor p.coordinator.cfg.chunkSize chunk
  | _ => True

theorem Process.step_extends (hstep : p.step h a = some (h', p')) : h.Extends h' := by
  cases Process.steps_of_step hstep with
  | emitLow => exact write_extends h _ _
  | emitHigh => exact write_extends h _ _
  | delivered => exact report_extends h p _
  | _ => exact .refl h

theorem Sound.step (hs : Sound db h p) (ha : p.Assumed db h a) (hstep : p.step h a = some (h', p')) :
    Sound db h' p' := by
  cases Process.steps_of_step hstep with
  | register => exact hs.register _ ha _
  | emitLow hstage => exact hs.emitLow hstage _ _
  | select hstage =>
    refine hs.select hstage fun s chunk hanswer => ?_
    subst hanswer
    obtain ⟨l, hl, hls, hboundary, hrows⟩ := ha
    exact ⟨l, hl, hls, hboundary.1, hrows⟩
  | publish hstage hsel => exact hs.publish hstage hsel
  | emitHigh hstage => exact hs.emitHigh hstage _ _
  | fail hstage => exact hs.fail hstage
  | abandon => exact hs.abandon _
  | up hpos => exact hs.up hpos
  | down => exact hs.down
  | take hstream hitem => exact hs.take hstream hitem _ _
  | delivered hstream hcontent => exact hs.delivered hstream hcontent

omit [ToString V] in
theorem report_wal (h : History V) (p : Process V) (content : Option WatermarkPayload) : (p.report h content).wal = h.wal := by
  unfold Process.report
  split <;> rfl

omit [ToString V] in
theorem write_wal (h : History V) (written : Bool) (payload : WatermarkPayload) :
    (Process.write h written payload).wal = h.wal ∨
      (Process.write h written payload).wal = h.wal ++ [Item.mark (some payload)] := by
  cases written with
  | false => exact .inl rfl
  | true => exact .inr rfl

/-- A process adds nothing to the log but the watermarks of its calls. -/
theorem Process.step_wal (hstep : p.step h a = some (h', p')) : h'.wal = h.wal ∨
    ∃ i mark, (p.calls i).stage ≠ .failed ∧ h'.wal = h.wal ++ [Item.mark (some (p.watermark i mark))] := by
  cases Process.steps_of_step hstep with
  | emitLow hstage => exact (write_wal h _ _).imp_right fun hwal => ⟨_, "low", by simp [hstage], hwal⟩
  | emitHigh hstage => exact (write_wal h _ _).imp_right fun hwal => ⟨_, "high", by simp [hstage], hwal⟩
  | delivered => exact .inl (report_wal h p _)
  | _ => exact .inl rfl

end Sound

end Gtc.Backfill
