/-
What a run of `backfillTable` knows: how the chunks of its window follow one
another, and which rows the chunks before them have covered.

`Covers` is the meaning of a cursor. Every row that has not changed since the
run's first select, up to the cursor, was emitted in a chunk that was reported
delivered, or a live change superseded it while that first select was made. It
is about the log and the reports only, so it outlives the run: a state that is
persisted says the same (`Progress`), and the next run goes on from there.
-/
import Gtc.Backfill.Brackets
import Gtc.Backfill.NodeSteps

namespace Gtc.Backfill

variable {V : Type}

/-! ## Names of tables -/

/-- The schema has no dot, so the name says which table it is. -/
def TableRef.Plain (ref : TableRef) : Prop := '.' ∉ ref.schema.toList

theorem TableRef.toList_string (ref : TableRef) :
    ref.string.toList = ref.schema.toList ++ '.' :: ref.table.toList := by
  simp [TableRef.string]

theorem TableRef.string_inj {ref ref' : TableRef} (h : ref.Plain) (h' : ref'.Plain) (heq : ref.string = ref'.string) :
    ref = ref' := by
  have htext := congrArg String.toList heq
  rw [TableRef.toList_string, TableRef.toList_string] at htext
  obtain ⟨hschema, htable⟩ := Lib.append_cons_inj_of_notMem h h' htext
  cases ref
  cases ref'
  rw [TableRef.mk.injEq]
  exact ⟨String.toList_injective hschema, String.toList_injective htable⟩

/-- What `splitTableName` splits is a plain table of that name. -/
theorem splitTableName_spec {name : String} {ref : TableRef} (h : splitTableName name = some ref) :
    ref.Plain ∧ ref.string = name := by
  unfold splitTableName at h
  split at h
  · cases h
  · rename_i c table hdrop
    cases h
    have hdot : c = '.' := by
      have hhead := List.head?_dropWhile_not (fun x => decide (x ≠ '.')) name.toList
      rw [hdrop] at hhead
      simpa using hhead
    refine ⟨fun hmem => ?_, String.toList_injective ?_⟩
    · have hall := List.all_eq_true.mp (@List.all_takeWhile _ (fun x => decide (x ≠ '.')) name.toList) '.'
        (by simpa using hmem)
      simp at hall
    · subst hdot
      rw [TableRef.toList_string, String.toList_ofList, String.toList_ofList, ← hdrop, List.takeWhile_append_dropWhile]

/-! ## What a step keeps of a chunk -/

/-- The chunk a step of `startChunk` is about. -/
def ProcessAct.chunk? : ProcessAct V → Option ℕ
  | .emitLow i _ _ => some i
  | .select i _ => some i
  | .publish i => some i
  | .emitHigh i _ _ => some i
  | .fail i => some i
  | _ => none

structure Process.Keeps (p p' : Process V) (i : ℕ) : Prop where
  registered : p'.coordinator.Registered i
  call : ∃ read, p'.calls i = { p.calls i with read }
  table : (p'.chunk i).table = (p.chunk i).table
  rowCount : (p'.chunk i).rowCount = (p.chunk i).rowCount
  lastCursor : (p'.chunk i).lastCursor = (p.chunk i).lastCursor

theorem Process.Keeps.of_eq {p p' : Process V} {i : ℕ} (hi : p'.coordinator.Registered i) (hcall : p'.calls i = p.calls i)
    (hchunk : p'.chunk i = p.chunk i) : p.Keeps p' i :=
  ⟨hi, ⟨(p.calls i).read, hcall⟩, by rw [hchunk], by rw [hchunk], by rw [hchunk]⟩

theorem handleWatermark_keeps (c : Coordinator V) (lsn : String) (now : ℕ) (content : Option WatermarkPayload) (i : ℕ) :
    ((c.handleWatermark lsn now content).2.chunks i).rowCount = (c.chunks i).rowCount ∧
      ((c.handleWatermark lsn now content).2.chunks i).lastCursor = (c.chunks i).lastCursor := by
  unfold Coordinator.handleWatermark
  repeat' split
  all_goals first | exact ⟨rfl, rfl⟩ | 
    exact ⟨c.setChunk_same (f := ChunkInFlight.rowCount) (by rfl) i, c.setChunk_same (f := ChunkInFlight.lastCursor) (by rfl) i⟩

theorem watermarkDelivered_keeps (c : Coordinator V) (content : Option WatermarkPayload) (i : ℕ) :
    ((c.watermarkDelivered content).chunks i).rowCount = (c.chunks i).rowCount ∧
      ((c.watermarkDelivered content).chunks i).lastCursor = (c.chunks i).lastCursor := by
  unfold Coordinator.watermarkDelivered
  repeat' split
  all_goals first | exact ⟨rfl, rfl⟩ | 
    exact ⟨Coordinator.setChunk_same _ (f := ChunkInFlight.rowCount) (by rfl) i,
      Coordinator.setChunk_same _ (f := ChunkInFlight.lastCursor) (by rfl) i⟩

section Step

variable [ToString V] {h h' : History V} {p p' : Process V} {i : ℕ}

theorem Process.take_keeps (hi : p.coordinator.Registered i) (s : Stream V) (lsn : String) (now : ℕ) (item : Item V) :
    p.Keeps (p.take s lsn now item) i := by
  cases item with
  | change event =>
    obtain ⟨seen, hseen⟩ := @Coordinator.observe_frame V event _ none p.coordinator.inflight p.coordinator.chunks i
    have hchunk : (p.take s lsn now (.change event)).chunk i = { p.chunk i with seen } := hseen
    exact ⟨hi, ⟨_, rfl⟩, by rw [hchunk], by rw [hchunk], by rw [hchunk]⟩
  | commit => exact .of_eq hi rfl rfl
  | mark content =>
    have he := p.coordinator.handleWatermark_evolves lsn now content
    obtain ⟨hrows, hcursor⟩ := handleWatermark_keeps p.coordinator lsn now content i
    refine ⟨(hi.evolves he), ?_, he.table i, hrows, hcursor⟩
    simp only [Process.take, Process.handleWatermark]
    cases p.highChunk content with
    | none => exact ⟨_, rfl⟩
    | some j =>
      by_cases hij : i = j
      · subst hij
        exact ⟨_, Function.update_self ..⟩
      · exact ⟨(p.calls i).read, Function.update_of_ne hij _ _⟩

/-- A step keeps every chunk but the one it is about, and that one too if it was
returned. -/
theorem Process.step_keeps {a : ProcessAct V} (hstep : p.step h a = some (h', p')) (hi : p.coordinator.Registered i)
    (ha : a.chunk? = some i → (p.calls i).stage = .returned) : p.Keeps p' i := by
  -- a step is not about a call that has returned
  have hne : ∀ {j : ℕ}, a.chunk? = some j → (p.calls j).stage ≠ .returned → i ≠ j := fun hj hstage hij => by
    subst hij
    exact hstage (ha hj)
  cases Process.steps_of_step hstep with
  | register =>
    have hnew : i ≠ p.coordinator.chunkSeq + 1 := by
      have := hi.1
      omega
    exact .of_eq ⟨Nat.le_succ_of_le hi.1, hi.2⟩ (Function.update_of_ne hnew _ _) (Function.update_of_ne hnew _ _)
  | emitLow hstage => exact .of_eq hi (Function.update_of_ne (hne rfl (by simp [hstage])) _ _) rfl
  | @select j answer hstage =>
    have hij : i ≠ j := hne rfl (by simp [hstage])
    cases answer <;> exact .of_eq hi (Function.update_of_ne hij _ _) rfl
  | publish hstage =>
    have hij := hne rfl (by simp [hstage])
    exact .of_eq (hi.evolves (p.coordinator.publish_evolves _ _)) (Function.update_of_ne hij _ _)
      (p.coordinator.publish_of_ne _ hij)
  | emitHigh hstage => exact .of_eq hi (Function.update_of_ne (hne rfl (by simp [hstage])) _ _) rfl
  | @fail j hstage =>
    refine .of_eq (hi.evolves (p.coordinator.abandon_evolves [j])) (Function.update_of_ne (hne rfl (by simp [hstage])) _ _) ?_
    show (p.coordinator.abandon [j]).chunks i = _
    rw [Coordinator.abandon_eq]
    rfl
  | @abandon chunks =>
    refine .of_eq (hi.evolves (p.coordinator.abandon_evolves chunks)) rfl ?_
    show (p.coordinator.abandon chunks).chunks i = _
    rw [Coordinator.abandon_eq]
    rfl
  | up =>
    obtain ⟨he, hchunks, -⟩ := p.coordinator.onStreamStart_spec
    exact .of_eq (hi.evolves he) rfl (congrFun hchunks i)
  | down =>
    obtain ⟨he, hchunks, -⟩ := p.coordinator.onStreamStop_spec
    exact .of_eq (hi.evolves he) rfl (congrFun hchunks i)
  | take => exact p.take_keeps hi _ _ _ _
  | @delivered _ _ content =>
    have he := p.coordinator.watermarkDelivered_evolves content
    obtain ⟨hrows, hcursor⟩ := watermarkDelivered_keeps p.coordinator content i
    exact ⟨hi.evolves he, ⟨_, rfl⟩, he.table i, hrows, hcursor⟩

end Step

/-! ## Covered rows -/

section Covers

variable [ToString V] {db : Database V} {h h' : History V} {ref : TableRef} {b : Began}

/-- A READ of the row was emitted in a chunk that was reported delivered, and
whose low watermark is not before `low`. -/
def Delivered (h : History V) (ref : TableRef) (low : ℕ) (row : Row V) : Prop :=
  ∃ r ∈ h.reports, r.table = ref ∧ low ≤ r.low ∧ ∃ event ∈ r.read, IsRead ref row event

/-- A run that began at `b` has covered the rows up to the cursor, or all. -/
structure Covers (db : Database V) (h : History V) (ref : TableRef) (b : Began) (cursor : List String) (done : Bool) :
    Prop where
  low : b.low < b.snapshot
  snapshot : b.snapshot ≤ h.wal.length
  rows : ∀ key values, db.Unchanged h.wal b.snapshot ref key values → done = true ∨ ¬ db.After ref cursor key →
    Delivered h ref b.low { key, values } ∨ db.Observed (between h.wal b.low b.snapshot) ref key

/-- Rows that are unchanged later are unchanged now. -/
theorem unchanged_of_grows {wal wal' : List (Item V)} (hp : wal <+: wal') {q : ℕ} (hq : q ≤ wal.length) {key : String}
    {values : Data V} (hrow : db.Unchanged wal' q ref key values) : db.Unchanged wal q ref key values := by
  refine ⟨take_of_grows hp hq ▸ hrow.1, fun event hevent => hrow.2 event ?_⟩
  obtain ⟨n, hn, hitem⟩ := mem_changes_drop.mp hevent
  exact mem_changes_drop.mpr ⟨n, hn, getElem?_of_grows hp hitem⟩

omit [ToString V] in
theorem Delivered.mono {low low' : ℕ} {row : Row V} (hd : Delivered h ref low row) (hx : h.Extends h') (hlow : low' ≤ low) :
    Delivered h' ref low' row := by
  obtain ⟨r, hr, htable, hle, hread⟩ := hd
  exact ⟨r, hx.reports r hr, htable, Nat.le_trans hlow hle, hread⟩

theorem Covers.mono {cursor : List String} {done : Bool} (hc : Covers db h ref b cursor done) (hx : h.Extends h') :
    Covers db h' ref b cursor done where
  low := hc.low
  snapshot := Nat.le_trans hc.snapshot hx.wal.length_le
  rows key values hrow hcursor := by
    rw [between_of_grows hx.wal hc.snapshot]
    exact (hc.rows key values (unchanged_of_grows hx.wal hc.snapshot hrow) hcursor).imp_left
      fun hd => hd.mono hx (Nat.le_refl _)

/-- A run that begins has covered nothing, and need not. -/
theorem covers_empty (hlow : b.low < b.snapshot) (hsnapshot : b.snapshot ≤ h.wal.length) : Covers db h ref b [] false where
  low := hlow
  snapshot := hsnapshot
  rows _ _ _ hcursor := hcursor.elim (fun hdone => nomatch hdone) fun hafter => absurd (.inl rfl) hafter

/-- What a recorded or persisted state says. -/
structure Progress (db : Database V) (h : History V) (ref : TableRef) (ts : TableState) : Prop where
  fresh : ts.began = none → ts.cursor = [] ∧ ts.done = false
  covers : ∀ b, ts.began = some b → Covers db h ref b ts.cursor ts.done

theorem Progress.mono {ts : TableState} (hp : Progress db h ref ts) (hx : h.Extends h') : Progress db h' ref ts :=
  ⟨hp.fresh, fun b hb => (hp.covers b hb).mono hx⟩

theorem progress_pending (db : Database V) (h : History V) (ref : TableRef) : Progress db h ref {} :=
  ⟨fun _ => ⟨rfl, rfl⟩, fun _ hb => nomatch hb⟩

end Covers

/-! ## The chunks of a run -/

section Chunks

variable [ToString V] {db : Database V} {h : History V} {p p' : Process V} {ref : TableRef} {began : Option Began}
  {cursor next : List String} {i : ℕ}

/-- The chunk is the run's first, or its watermarks come after that one's
select. -/
def Since (began : Option Began) (call : Call V) : Prop :=
  match call.selection with
  | none => ∀ b, began = some b → ∀ low, call.low = some low → b.snapshot ≤ low
  | some (snapshot, _) => ∃ b low, began = some b ∧ call.low = some low ∧
      (low = b.low ∧ snapshot = b.snapshot ∨ b.snapshot ≤ low)

/-- `startChunk` returned a chunk of the table that starts at the cursor. -/
structure Returned (p : Process V) (ref : TableRef) (began : Option Began) (cursor : List String) (i : ℕ) : Prop where
  registered : p.coordinator.Registered i
  stage : (p.calls i).stage = .returned
  table : (p.chunk i).table = ref
  cursor : (p.calls i).cursor = cursor
  since : Since began (p.calls i)

/-- The chunks of a window, each from where the one before it ends. -/
def Chained (p : Process V) (ref : TableRef) (began : Option Began) : List String → List ℕ → List String → Prop
  | cursor, [], next => next = cursor
  | cursor, i :: is, next => Returned p ref began cursor i ∧ Chained p ref began (p.chunk i).lastCursor is next

omit [ToString V] in
theorem Returned.keeps (hr : Returned p ref began cursor i) (hk : p.Keeps p' i) : Returned p' ref began cursor i := by
  obtain ⟨read, hcall⟩ := hk.call
  refine ⟨hk.registered, ?_, hk.table.trans hr.table, ?_, ?_⟩ <;> rw [hcall]
  · exact hr.stage
  · exact hr.cursor
  · exact hr.since

omit [ToString V] in
theorem Chained.keeps {window : List ℕ} (hc : Chained p ref began cursor window next) (hk : ∀ i ∈ window, p.Keeps p' i) :
    Chained p' ref began cursor window next := by
  induction window generalizing cursor with
  | nil => exact hc
  | cons i is ih =>
    refine ⟨hc.1.keeps (hk i (by simp)), ?_⟩
    rw [(hk i (by simp)).lastCursor]
    exact ih hc.2 fun j hj => hk j (by simp [hj])

omit [ToString V] in
theorem Chained.returned {window : List ℕ} (hc : Chained p ref began cursor window next) :
    ∀ i ∈ window, p.coordinator.Registered i ∧ (p.calls i).stage = .returned := by
  induction window generalizing cursor with
  | nil => exact fun _ hi => nomatch hi
  | cons j is ih =>
    intro i hi
    rcases List.mem_cons.mp hi with rfl | hi
    · exact ⟨hc.1.registered, hc.1.stage⟩
    · exact ih hc.2 i hi

omit [ToString V] in
/-- The next chunk joins the window. -/
theorem Chained.concat {window : List ℕ} (hc : Chained p ref began cursor window next) (hr : Returned p ref began next i) :
    Chained p ref began cursor (window ++ [i]) (p.chunk i).lastCursor := by
  induction window generalizing cursor with
  | nil =>
    obtain rfl : next = cursor := hc
    exact ⟨hr, rfl⟩
  | cons j is ih => exact ⟨hc.1, ih hc.2⟩

/-- **What a delivered chunk covers**: of the rows after its cursor, all if it is
short, and else those up to its last. -/
theorem Returned.covered (hr : Returned p ref began cursor i) (hs : Sound db h p) (hdone : (p.chunk i).done = true)
    (hsize : 0 < p.coordinator.cfg.chunkSize) {b : Began} (hb : began = some b) (hlow : b.low < b.snapshot) {key : String}
    {values : Data V} (hrow : db.Unchanged h.wal b.snapshot ref key values) (hafter : db.After ref cursor key)
    (hpast : (p.chunk i).rowCount < p.coordinator.cfg.chunkSize ∨ ¬ db.After ref (p.chunk i).lastCursor key) :
    Delivered h ref b.low { key, values } ∨ db.Observed (between h.wal b.low b.snapshot) ref key := by
  have hc := hs.call i hr.registered
  obtain ⟨s, chunk, hsel, hcount, hlast⟩ := hc.published (.inr hr.stage)
  obtain ⟨l, hl, hls, hlen, hrows⟩ := hc.selection s chunk hsel
  rw [hr.table, hr.cursor] at hrows
  have hsince := hr.since
  simp only [Since, hsel, hl, hb, Option.some.injEq, exists_and_left, exists_eq_left'] at hsince
  have hsnap : b.snapshot ≤ s := by omega
  -- the row has not changed, so the select saw it
  have hat : db.source (h.wal.take s) (ref, key) = some values := by
    rw [Database.source, changes_take hsnap, Lib.Journal.replay_append, Lib.Journal.replay_frame]
    · exact hrow.1
    · intro event hevent
      obtain ⟨q, hq, -, hitem⟩ := mem_between.mp hevent
      exact hrow.2 event (mem_changes_drop.mpr ⟨q, hq, hitem⟩)
  have hmem : { key, values } ∈ chunk.rows :=
    hrows.mem_rows hsize hat hafter (by rwa [hcount, hlast] at hpast)
  rcases hc.done hdone with ⟨s', chunk', hsel', hnil⟩ | ⟨low, read, hlow', hread, hreport⟩
  · rw [hsel] at hsel'
    cases hsel'
    rw [hnil] at hmem
    cases hmem
  · obtain ⟨l', s', chunk', q, hl', hsel', -, hemitted⟩ := hc.read read hread
    rw [hsel] at hsel'
    rw [hl] at hl' hlow'
    cases hsel'
    cases hl'
    cases hlow'
    rw [hr.table] at hreport hemitted
    rcases hemitted _ hmem with hread' | ⟨event, hevent, href, hkey⟩
    · refine .inl ⟨_, hreport, rfl, ?_, hread'⟩
      show b.low ≤ l
      omega
    · -- a change of the row can only have come before the run's first select
      obtain ⟨n, hn, hnq, hitem⟩ := mem_between.mp hevent
      have hbefore : n < b.snapshot := by
        by_contra hge
        exact hrow.2 event (mem_changes_drop.mpr ⟨n, Nat.not_lt.mp hge, hitem⟩)
          (touches_of_observedKey db.primaryKey href hkey)
      exact .inr ⟨event, mem_between.mpr ⟨n, by omega, hbefore, hitem⟩, href, hkey⟩

theorem Returned.covers (hr : Returned p ref began cursor i) (hs : Sound db h p) (hdone : (p.chunk i).done = true)
    (hsize : 0 < p.coordinator.cfg.chunkSize) {b : Began} (hb : began = some b) (hc : Covers db h ref b cursor false) :
    Covers db h ref b (p.chunk i).lastCursor (decide ((p.chunk i).rowCount < p.coordinator.cfg.chunkSize)) where
  low := hc.low
  snapshot := hc.snapshot
  rows key values hrow hpast := by
    by_cases hafter : db.After ref cursor key
    · exact hr.covered hs hdone hsize hb hc.low hrow hafter (hpast.imp_left of_decide_eq_true)
    · exact hc.rows key values hrow (.inr hafter)

end Chunks

/-! ## The state of a run -/

/-- The chunk a run is starting. -/
def RunPoint.chunk? : RunPoint → Option ℕ
  | .starting i => some i
  | .abandoning i _ => some i
  | _ => none

/-- The progress a run holds. -/
def RunPoint.state? : RunPoint → Option TableState
  | .loaded (some (some ts)) => some ts
  | .record ts => some ts
  | .save ts => some ts
  | _ => none

/-- The key columns are known, and the run has not ended. -/
def RunPoint.working : RunPoint → Bool
  | .primaryKey => false
  | .leave _ => false
  | .returned _ => false
  | .failed _ => false
  | _ => true

/-- The run starts no chunk any more. -/
def RunPoint.final : RunPoint → Bool
  | .record ts => ts.done
  | .save ts => ts.done
  | .saved ts => ts.done
  | .leave _ => true
  | .returned _ => true
  | .failed _ => true
  | _ => false

section RunOk

variable [ToString V] {db : Database V} {h h' : History V} {p p' : Process V} {l : ℕ} {run : Run}

structure RunOk (db : Database V) (h : History V) (p : Process V) (l : ℕ) (run : Run) : Prop where
  plain : run.ref.Plain
  pkCols : run.point.working = true → run.pkCols = db.primaryKey run.ref
  state : ∀ ts, run.point.state? = some ts → Progress db h run.ref ts
  fresh : run.began = none → run.cursor = [] ∧ run.next = [] ∧ run.window = []
  covers : ∀ b, run.began = some b → Covers db h run.ref b run.cursor false
  window : ∃ start, Chained p run.ref run.began start run.window run.next ∧ (run.point.final = false → start = run.cursor)
  own : ∀ i, run.point.chunk? = some i → p.coordinator.Registered i ∧ (p.calls i).lane = l
  starting : ∀ i, run.point = .starting i → (p.chunk i).table = run.ref ∧ (p.calls i).cursor = run.next ∧
    Since run.began (p.calls i)

/-- A run whose chunks are kept stays as it is. -/
theorem RunOk.keeps (hr : RunOk db h p l run) (hx : h.Extends h') (hwindow : ∀ i ∈ run.window, p.Keeps p' i)
    (hchunk : ∀ i, run.point.chunk? = some i → p.Keeps p' i) : RunOk db h' p' l run where
  plain := hr.plain
  pkCols := hr.pkCols
  state ts hts := (hr.state ts hts).mono hx
  fresh := hr.fresh
  covers b hb := (hr.covers b hb).mono hx
  window := by
    obtain ⟨start, hchain, hstart⟩ := hr.window
    exact ⟨start, hchain.keeps hwindow, hstart⟩
  own i hi := by
    obtain ⟨read, hcall⟩ := (hchunk i hi).call
    refine ⟨(hchunk i hi).registered, ?_⟩
    rw [hcall]
    exact (hr.own i hi).2
  starting i hi := by
    have hk := hchunk i (by rw [hi]; rfl)
    obtain ⟨read, hcall⟩ := hk.call
    obtain ⟨htable, hcursor, hsince⟩ := hr.starting i hi
    rw [hcall]
    exact ⟨hk.table.trans htable, hcursor, hsince⟩

/-- A run that goes on without a chunk to start. -/
theorem RunOk.goto (hr : RunOk db h p l run) {point : RunPoint} {pkCols : List String}
    (hpk : point.working = true → pkCols = db.primaryKey run.ref)
    (hstate : ∀ ts, point.state? = some ts → Progress db h run.ref ts) (hchunk : point.chunk? = none)
    (hfinal : point.final = false → run.point.final = false) : RunOk db h p l { run with point, pkCols } where
  plain := hr.plain
  pkCols := hpk
  state := hstate
  fresh := hr.fresh
  covers := hr.covers
  window := by
    obtain ⟨start, hchain, hstart⟩ := hr.window
    exact ⟨start, hchain, fun hpoint => hstart (hfinal hpoint)⟩
  own i hi := by
    rw [hchunk] at hi
    cases hi
  starting i hi := by
    rw [show point = .starting i from hi] at hchunk
    cases hchunk

/-- A run that goes on to a point where it holds nothing. -/
theorem RunOk.move (hr : RunOk db h p l run) {point : RunPoint} (hworking : run.point.working = true)
    (hfinal : run.point.final = false) (hstate : point.state? = none) (hchunk : point.chunk? = none) :
    RunOk db h p l { run with point } :=
  hr.goto (fun _ => hr.pkCols hworking) (fun ts hts => by rw [hstate] at hts; cases hts) hchunk fun _ => hfinal

/-- A run that leaves. -/
theorem RunOk.exit (hr : RunOk db h p l run) {point : RunPoint} (hworking : point.working = false)
    (hfinal : point.final = true) (hstate : point.state? = none) (hchunk : point.chunk? = none) :
    RunOk db h p l { run with point } :=
  hr.goto (fun hw => by rw [hworking] at hw; cases hw) (fun ts hts => by rw [hstate] at hts; cases hts) hchunk
    fun hf => by rw [hfinal] at hf; cases hf

/-- A run that leaves while the process takes a step. -/
theorem RunOk.leaves (hr : RunOk db h p l run) (hx : h.Extends h') (hwindow : ∀ i ∈ run.window, p.Keeps p' i)
    {point : RunPoint} (hworking : point.working = false) (hfinal : point.final = true) (hstate : point.state? = none)
    (hchunk : point.chunk? = none) : RunOk db h' p' l { run with point } :=
  (hr.exit hworking hfinal hstate hchunk).keeps hx hwindow fun i hi => by
    rw [hchunk] at hi
    cases hi

/-- A run that has only been given its table. -/
theorem runOk_new (db : Database V) (h : History V) (p : Process V) (l : ℕ) {ref : TableRef} (hplain : ref.Plain) :
    RunOk db h p l { ref } where
  plain := hplain
  pkCols hpoint := nomatch hpoint
  state _ hts := nomatch hts
  fresh _ := ⟨rfl, rfl, rfl⟩
  covers _ hb := nomatch hb
  window := ⟨[], rfl, fun _ => rfl⟩
  own _ hi := nomatch hi
  starting _ hi := nomatch hi

/-! ### Its steps -/

theorem RunOk.primaryKey (hr : RunOk db h p l run) (hpoint : run.point = .primaryKey)
    {answer : Except String (List String)} (hanswer : ∀ pkCols, answer = .ok pkCols → pkCols = db.primaryKey run.ref) :
    RunOk db h p l (run.primaryKey answer) := by
  have hfinal : run.point.final = false := by rw [hpoint]; rfl
  cases answer with
  | error err => exact hr.exit rfl rfl rfl rfl
  | ok pkCols =>
    by_cases hnil : pkCols = []
    · simp only [Run.primaryKey, if_pos hnil]
      exact hr.goto (fun _ => hanswer pkCols rfl) (fun _ hts => nomatch hts) rfl fun _ => hfinal
    · simp only [Run.primaryKey, if_neg hnil]
      exact hr.goto (fun _ => hanswer pkCols rfl) (fun _ hts => nomatch hts) rfl fun _ => hfinal

theorem RunOk.reloaded (hr : RunOk db h p l run) {answer : Option (Option TableState)} (hpoint : run.point = .loaded answer) :
    RunOk db h p l (run.reloaded answer) := by
  have hmove : ∀ {point : RunPoint}, point.state? = none → point.chunk? = none → RunOk db h p l { run with point } :=
    hr.move (by rw [hpoint]; rfl) (by rw [hpoint]; rfl)
  rcases answer with _ | _ | ts
  · exact hmove rfl rfl
  · exact hmove rfl rfl
  · by_cases hdone : ts.done = true
    · simp only [Run.reloaded, if_pos hdone]
      exact hmove rfl rfl
    · simp only [Run.reloaded, if_neg hdone]
      exact hmove rfl rfl

theorem RunOk.resume (hr : RunOk db h p l run) (hworking : run.point.working = true) {prev : TableState}
    (hprev : Progress db h run.ref prev) : RunOk db h p l (run.resume prev) where
  plain := hr.plain
  pkCols _ := hr.pkCols hworking
  state _ hts := nomatch hts
  fresh hb := by
    by_cases hnil : prev.cursor = []
    · exact ⟨hnil, hnil, rfl⟩
    · simp only [Run.resume, if_neg hnil] at hb
      exact absurd (hprev.fresh hb).1 hnil
  covers b hb := by
    by_cases hnil : prev.cursor = []
    · simp [Run.resume, hnil] at hb
    · simp only [Run.resume, if_neg hnil] at hb
      have hc := hprev.covers b hb
      exact ⟨hc.low, hc.snapshot, fun key values hrow hcursor => hc.rows key values hrow
        (.inr (hcursor.resolve_left (by decide)))⟩
  window := ⟨_, rfl, fun _ => rfl⟩
  own _ hi := nomatch hi
  starting _ hi := nomatch hi

theorem RunOk.fill (hr : RunOk db h p l run) (hpoint : run.point = .fill) : RunOk db h p l run.fill := by
  have hworking : run.point.working = true := by rw [hpoint]; rfl
  have hfinal : run.point.final = false := by rw [hpoint]; rfl
  unfold Run.fill
  split
  · exact hr.move hworking hfinal rfl rfl
  · exact hr.move hworking hfinal rfl rfl

/-- The chunk a run is starting, and where it starts. -/
structure Starts (p : Process V) (l : ℕ) (run : Run) (i : ℕ) : Prop where
  registered : p.coordinator.Registered i
  lane : (p.calls i).lane = l
  table : (p.chunk i).table = run.ref
  cursor : (p.calls i).cursor = run.next
  since : Since run.began (p.calls i)

theorem RunOk.starts (hr : RunOk db h p l run) {i : ℕ} (hpoint : run.point = .starting i) : Starts p l run i := by
  obtain ⟨hi, hlane⟩ := hr.own i (by rw [hpoint]; rfl)
  obtain ⟨htable, hcursor, hsince⟩ := hr.starting i hpoint
  exact ⟨hi, hlane, htable, hcursor, hsince⟩

/-- `startChunk` goes on with the run's own chunk. -/
theorem RunOk.onChunk (hr : RunOk db h p l run) (hx : h.Extends h') {i : ℕ} (hpoint : run.point = .starting i)
    (hwindow : ∀ i ∈ run.window, p.Keeps p' i) (hi : Starts p' l run i) : RunOk db h' p' l run where
  plain := hr.plain
  pkCols := hr.pkCols
  state ts hts := (hr.state ts hts).mono hx
  fresh := hr.fresh
  covers b hb := (hr.covers b hb).mono hx
  window := by
    obtain ⟨start, hchain, hstart⟩ := hr.window
    exact ⟨start, hchain.keeps hwindow, hstart⟩
  own j hj := by
    rw [hpoint] at hj
    cases hj
    exact ⟨hi.registered, hi.lane⟩
  starting j hj := by
    rw [hpoint] at hj
    cases hj
    exact ⟨hi.table, hi.cursor, hi.since⟩

/-- A run enters `startChunk`. -/
theorem RunOk.registered (hr : RunOk db h p l run) (hpoint : run.point = .register) :
    RunOk db h (p.register l run.ref run.pkCols run.next) l { run with point := .starting (p.coordinator.chunkSeq + 1) } := by
  have hcall : (p.register l run.ref run.pkCols run.next).calls (p.coordinator.chunkSeq + 1) =
      { lane := l, cursor := run.next } := Function.update_self ..
  have hkeeps : ∀ i, p.coordinator.Registered i → p.Keeps (p.register l run.ref run.pkCols run.next) i := fun i hi => by
    have hstep : p.step h (.register l run.ref run.pkCols run.next) = some (h, p.register l run.ref run.pkCols run.next) := rfl
    exact Process.step_keeps hstep hi fun ha => nomatch ha
  exact {
    plain := hr.plain
    pkCols := fun _ => hr.pkCols (by rw [hpoint]; rfl)
    state := fun _ hts => nomatch hts
    fresh := hr.fresh
    covers := hr.covers
    window := by
      obtain ⟨start, hchain, hstart⟩ := hr.window
      exact ⟨start, hchain.keeps fun i hi => hkeeps i (hchain.returned i hi).1, fun _ => hstart (by rw [hpoint]; rfl)⟩
    own := fun i hi => by
      cases hi
      exact ⟨⟨Nat.le_refl _, Nat.succ_pos _⟩, by rw [hcall]⟩
    starting := fun i hi => by
      cases hi
      rw [hcall]
      refine ⟨?_, rfl, fun _ _ _ hlow => nomatch hlow⟩
      simp [Process.register, Process.chunk, Coordinator.register] }

/-- A watermark is written after the run began. -/
theorem RunOk.emits (hr : RunOk db h p l run) (hs : Sound db h p) {i : ℕ} (hpoint : run.point = .starting i) {a : ProcessAct V}
    {written ok : Bool} (ha : a = .emitLow i written ok ∨ a = .emitHigh i written ok) (hstep : p.step h a = some (h', p')) :
    Starts p' l run i := by
  have hi := hr.starts hpoint
  rcases ha with rfl | rfl
  · cases Process.steps_of_step hstep with
    | emitLow hstage =>
      have hcall : (p.emitLow h i written ok).calls i =
        { p.calls i with low := Process.writtenAt h written, stage := if ok then .select else .abandon } := Function.update_self ..
      refine ⟨hi.registered, ?_, hi.table, ?_, ?_⟩ <;> rw [hcall]
      · exact hi.lane
      · exact hi.cursor
      · have hunselected := (hs.call i hi.registered).unselected (.inl hstage)
        simp only [Since, hunselected]
        intro b hb low hlow
        rw [writtenAt_eq hlow]
        exact (hr.covers b hb).snapshot
  · cases Process.steps_of_step hstep with
    | emitHigh hstage =>
      have hcall : (p.emitHigh h i written ok).calls i =
        { p.calls i with high := Process.writtenAt h written, stage := if ok then .returned else .abandon } :=
        Function.update_self ..
      refine ⟨hi.registered, ?_, hi.table, ?_, ?_⟩ <;> rw [hcall]
      · exact hi.lane
      · exact hi.cursor
      · exact hi.since

/-- What the select returned is published. -/
theorem RunOk.publishes (hr : RunOk db h p l run) {i : ℕ} (hpoint : run.point = .starting i)
    (hstep : p.step h (.publish i) = some (h', p')) : Starts p' l run i := by
  have hi := hr.starts hpoint
  cases Process.steps_of_step hstep with
  | @publish _ s selected hstage hsel =>
    have he := p.coordinator.publish_evolves i selected
    have hcall : (p.publish i selected).calls i =
        { p.calls i with stage := if selected.rows.length = 0 then .returned else .high } := Function.update_self ..
    refine ⟨hi.registered.evolves he, ?_, (he.table i).trans hi.table, ?_, ?_⟩ <;> rw [hcall]
    · exact hi.lane
    · exact hi.cursor
    · exact hi.since

/-- `startChunk` gives its chunk up. -/
theorem RunOk.abandoning (hr : RunOk db h p l run) (hx : h.Extends h') {i : ℕ} (hpoint : run.point = .starting i)
    (hwindow : ∀ i ∈ run.window, p.Keeps p' i) (hi : p'.coordinator.Registered i) (hlane : (p'.calls i).lane = l)
    (err : String) : RunOk db h' p' l { run with point := .abandoning i err } where
  plain := hr.plain
  pkCols _ := hr.pkCols (by rw [hpoint]; rfl)
  state _ hts := nomatch hts
  fresh := hr.fresh
  covers b hb := (hr.covers b hb).mono hx
  window := by
    obtain ⟨start, hchain, hstart⟩ := hr.window
    exact ⟨start, hchain.keeps hwindow, fun _ => hstart (by rw [hpoint]; rfl)⟩
  own j hj := by
    cases hj
    exact ⟨hi, hlane⟩
  starting _ hj := nomatch hj

/-- The select of the run's own chunk has answered. -/
theorem RunOk.selected (hr : RunOk db h p l run) {i : ℕ} (hpoint : run.point = .starting i) {low snapshot : ℕ} {chunk : Chunk V}
    (hunselected : (p.calls i).selection = none) (hlow : (p.calls i).low = some low) (hlt : low < snapshot)
    (hlen : snapshot ≤ h.wal.length) (hwindow : ∀ j ∈ run.window, p.Keeps (p.select i (some (snapshot, chunk))) j) :
    RunOk db h (p.select i (some (snapshot, chunk))) l (run.selected low snapshot) := by
  have hcall : (p.select i (some (snapshot, chunk))).calls i =
      { p.calls i with selection := some (snapshot, chunk), stage := .publish } := Function.update_self ..
  obtain ⟨hi, hlane⟩ := hr.own i (by rw [hpoint]; rfl)
  obtain ⟨htable, hcursor, hsince⟩ := hr.starting i hpoint
  cases hb : run.began with
  | none =>
    -- the run's first select
    obtain ⟨hcursor', hnext, hwin⟩ := hr.fresh hb
    have hselected : run.selected low snapshot = { run with began := some ⟨low, snapshot⟩ } := by
      simp [Run.selected, hnext, hb]
    rw [hselected]
    exact {
      plain := hr.plain
      pkCols := hr.pkCols
      state := hr.state
      fresh := fun hnone => nomatch hnone
      covers := fun b hb' => by
        cases hb'
        rw [hcursor']
        exact covers_empty hlt hlen
      window := ⟨[], by rw [hwin, hnext]; rfl, fun _ => hcursor'.symm⟩
      own := fun j hj => by
        rw [hpoint] at hj
        cases hj
        exact ⟨hi, by rw [hcall]; exact hlane⟩
      starting := fun j hj => by
        rw [hpoint] at hj
        cases hj
        rw [hcall]
        exact ⟨htable, hcursor, ⟨_, low, rfl, hlow, .inl ⟨rfl, rfl⟩⟩⟩ }
  | some b =>
    have hselected : run.selected low snapshot = run := by
      cases run
      simp_all [Run.selected]
    rw [hselected]
    refine hr.onChunk (.refl h) hpoint hwindow ⟨hi, by rw [hcall]; exact hlane, htable, by rw [hcall]; exact hcursor, ?_⟩
    rw [hcall, hb]
    simp only [Since, hunselected, hb] at hsince
    exact ⟨b, low, rfl, hlow, .inr (hsince b rfl low hlow)⟩

/-- `startChunk` returned its chunk, which joins the window. -/
theorem RunOk.started (hr : RunOk db h p l run) {i : ℕ} (hpoint : run.point = .starting i)
    (hstage : (p.calls i).stage = .returned) (hselected : (p.calls i).selection ≠ none) (chunkSize : ℕ) :
    RunOk db h p l (run.started chunkSize i (p.chunk i)) := by
  obtain ⟨hi, -⟩ := hr.own i (by rw [hpoint]; rfl)
  obtain ⟨htable, hcursor, hsince⟩ := hr.starting i hpoint
  exact {
    plain := hr.plain
    pkCols := fun _ => hr.pkCols (by rw [hpoint]; rfl)
    state := fun _ hts => nomatch hts
    fresh := fun hb => by
      obtain ⟨⟨s, chunk⟩, hsel⟩ := Option.ne_none_iff_exists'.mp hselected
      have hnone : run.began = none := hb
      simp [Since, hsel, hnone] at hsince
    covers := hr.covers
    window := by
      obtain ⟨start, hchain, hstart⟩ := hr.window
      exact ⟨start, hchain.concat ⟨hi, hstage, htable, hcursor, hsince⟩, fun _ => hstart (by rw [hpoint]; rfl)⟩
    own := fun _ hj => nomatch hj
    starting := fun _ hj => nomatch hj }

theorem RunOk.restart (hr : RunOk db h p l run) (hworking : run.point.working = true) : RunOk db h p l run.restart where
  plain := hr.plain
  pkCols _ := hr.pkCols hworking
  state _ hts := nomatch hts
  fresh hb := ⟨(hr.fresh hb).1, (hr.fresh hb).1, rfl⟩
  covers := hr.covers
  window := ⟨_, rfl, fun _ => rfl⟩
  own _ hi := nomatch hi
  starting _ hi := nomatch hi

/-- The head of the window is done: what the run records is covered. -/
theorem RunOk.delivered (hr : RunOk db h p l run) (hs : Sound db h p) (hpoint : run.point = .await) {head : ℕ}
    {window : List ℕ} (hwindow : run.window = head :: window) (hdone : (p.chunk head).done = true)
    (hsize : 0 < p.coordinator.cfg.chunkSize) :
    RunOk db h p l (run.delivered p.coordinator.cfg.chunkSize (p.chunk head) window) := by
  have hworking : run.point.working = true := by rw [hpoint]; rfl
  obtain ⟨hhead, hrest⟩ : Returned p run.ref run.began run.cursor head ∧
      Chained p run.ref run.began (p.chunk head).lastCursor window run.next := by
    obtain ⟨start, hchain, hstart⟩ := hr.window
    obtain rfl := hstart (by rw [hpoint]; rfl)
    rwa [hwindow] at hchain
  have hbegan : run.began ≠ none := fun hnone => by
    rw [(hr.fresh hnone).2.2] at hwindow
    cases hwindow
  obtain ⟨b, hb⟩ := Option.ne_none_iff_exists'.mp hbegan
  have hcovers := hhead.covers hs hdone hsize hb (hr.covers b hb)
  unfold Run.delivered
  split
  · rename_i hshort
    rw [decide_eq_true hshort] at hcovers
    exact {
      plain := hr.plain
      pkCols := fun _ => hr.pkCols hworking
      state := fun ts hts => by
        cases hts
        refine ⟨fun hnone => absurd hnone hbegan, fun b' hb' => ?_⟩
        cases hb.symm.trans hb'
        exact ⟨hcovers.low, hcovers.snapshot, fun key values hrow _ => hcovers.rows key values hrow (.inl rfl)⟩
      fresh := fun hnone => absurd hnone hbegan
      covers := hr.covers
      window := ⟨_, hrest, fun hfinal => nomatch hfinal⟩
      own := fun _ hi => nomatch hi
      starting := fun _ hi => nomatch hi }
  · rename_i hfull
    rw [decide_eq_false hfull] at hcovers
    have hnext : ∀ b', run.began = some b' → Covers db h run.ref b' (p.chunk head).lastCursor false := fun b' hb' => by
      cases hb.symm.trans hb'
      exact hcovers
    exact {
      plain := hr.plain
      pkCols := fun _ => hr.pkCols hworking
      state := fun ts hts => by
        cases hts
        exact ⟨fun hnone => absurd hnone hbegan, hnext⟩
      fresh := fun hnone => absurd hnone hbegan
      covers := hnext
      window := ⟨_, hrest, fun _ => rfl⟩
      own := fun _ hi => nomatch hi
      starting := fun _ hi => nomatch hi }

end RunOk

end Gtc.Backfill
