/-
What a run of `backfillTable` has before it: the rows after its cursor, in key
order, in pages of the chunk size.

While no change of the table is committed, the select that starts where page `j`
ends answers page `j + 1` (`Plan.Fits.select`). `Mine` is what holds of a chunk
of the run from the time it is registered: its watermarks come after the run
began, so that nothing between them supersedes its rows, and once its high
watermark came by it has delivered every row it selected.
-/
import Gtc.Backfill.Lanes
import Gtc.Lib.Paging

namespace Gtc.Backfill

open Lib

variable {V : Type} [ToString V]

/-! ## Rows in key order -/

namespace Database

variable {db : Database V} {rows : Contents V} {ref : TableRef} {cursor : List String} {list : List (Row V)}

/-- The key has columns, and its order is one. -/
structure KeyOrder (db : Database V) (ref : TableRef) : Prop where
  trans : ∀ a b c, db.lt ref a b → db.lt ref b c → db.lt ref a c
  cursor : ∀ key, db.cursor ref key ≠ []

/-- The rows after the cursor, in key order. -/
structure Listing (db : Database V) (rows : Contents V) (ref : TableRef) (cursor : List String) (list : List (Row V)) : Prop where
  mem : ∀ row, row ∈ list ↔ rows (ref, row.key) = some row.values ∧ db.After ref cursor row.key
  sorted : list.Pairwise fun a b => db.lt ref (db.cursor ref a.key) (db.cursor ref b.key)

theorem FirstRows.rows_eq {limit : ℕ} {chunk : Chunk V} (h : db.FirstRows rows ref cursor limit chunk)
    (horder : db.KeyOrder ref) (hlist : db.Listing rows ref cursor list) : chunk.rows = list.take limit := by
  refine eq_take_of_initial (r := fun a b : Row V => db.lt ref (db.cursor ref a.key) (db.cursor ref b.key))
    (fun a => db.lt_irrefl ref _) (fun a b d => horder.trans _ _ _) hlist.sorted h.sorted
    (fun row hrow => (hlist.mem row).mpr (h.mem row hrow)) h.length fun row hrow => ?_
  obtain ⟨hvalues, hafter⟩ := (hlist.mem row).mp hrow
  exact h.rest row.key row.values hvalues hafter

/-- The first rows of a listing are what a select returns. -/
theorem Listing.firstRows (hlist : db.Listing rows ref cursor list) (limit : ℕ) :
    db.FirstRows rows ref cursor limit
      { rows := list.take limit, lastCursor := ((list.take limit).getLast?.map fun row => db.cursor ref row.key).getD [] } where
  mem row hrow := (hlist.mem row).mp (List.mem_of_mem_take hrow)
  sorted := hlist.sorted.sublist (List.take_sublist limit list)
  length := List.length_take_le limit list
  rest key values hvalues hafter := by
    have hrow := (hlist.mem { key, values }).mpr ⟨hvalues, hafter⟩
    rw [← List.take_append_drop limit list, List.mem_append] at hrow
    refine hrow.imp_right fun hdrop => ⟨?_, fun row htake => ?_⟩
    · have hpos := List.length_pos_of_mem hdrop
      rw [List.length_drop] at hpos
      rw [List.length_take]
      omega
    · have hsorted := hlist.sorted
      rw [← List.take_append_drop limit list, List.pairwise_append] at hsorted
      exact hsorted.2.2 row htake _ hdrop
  lastCursor := rfl

/-- The rows after one of them. -/
theorem Listing.after {before after : List (Row V)} {row : Row V}
    (hlist : db.Listing rows ref cursor (before ++ row :: after)) (horder : db.KeyOrder ref) :
    db.Listing rows ref (db.cursor ref row.key) after := by
  obtain ⟨-, hsorted, hbefore⟩ := List.pairwise_append.mp hlist.sorted
  obtain ⟨hafter, hsorted⟩ := List.pairwise_cons.mp hsorted
  refine ⟨fun row' => ⟨fun hmem => ?_, fun hrow' => ?_⟩, hsorted⟩
  · exact ⟨((hlist.mem row').mp (by simp [hmem])).1, .inr (hafter row' hmem)⟩
  · obtain ⟨hvalues, hpast⟩ := hrow'
    have hlt := hpast.resolve_left (horder.cursor row.key)
    have hcursor : db.After ref cursor row'.key :=
      ((hlist.mem row).mp (by simp)).2.imp_right fun hrow => horder.trans _ _ _ hrow hlt
    rcases List.mem_append.mp ((hlist.mem row').mpr ⟨hvalues, hcursor⟩) with hmem | hmem
    · exact absurd (horder.trans _ _ _ hlt (hbefore row' hmem row (by simp))) (db.lt_irrefl ref _)
    · rcases List.mem_cons.mp hmem with rfl | hmem
      · exact absurd hlt (db.lt_irrefl ref _)
      · exact hmem

end Database

/-! ## What a run has before it -/

structure Plan (V : Type) where
  ref : TableRef
  /-- Where it starts, and what was copied before. -/
  cursor : List String
  copied : ℕ
  size : ℕ
  /-- The rows after the cursor. -/
  rows : List (Row V)
  /-- The end of the log when it starts. -/
  since : ℕ

namespace Plan

variable (plan : Plan V) (db : Database V)

/-- How many chunks there are. -/
def count : ℕ := plan.rows.length / plan.size + 1

/-- What the select of chunk `j` returns. -/
def chunk (j : ℕ) : Chunk V :=
  let rows := page plan.size plan.rows j
  { rows, lastCursor := (rows.getLast?.map fun row => db.cursor plan.ref row.key).getD [] }

/-- The cursor of that select. -/
def cursorAt : ℕ → List String
  | 0 => plan.cursor
  | j + 1 => (plan.chunk db j).lastCursor

/-- What is saved once chunk `j` is delivered. -/
def saved (j : ℕ) : TableState :=
  if j + 1 < plan.count then
    { cursor := (plan.chunk db j).lastCursor, rowsCopied := plan.copied + (j + 1) * plan.size }
  else { done := true, rowsCopied := plan.copied + plan.rows.length }

/-- The table is as planned, and no change of it has come since. -/
structure Fits (plan : Plan V) (db : Database V) (wal : List (Item V)) : Prop where
  order : db.KeyOrder plan.ref
  size : 0 < plan.size
  since : plan.since ≤ wal.length
  still : ∀ event ∈ changes (wal.drop plan.since), eventRef event ≠ plan.ref
  listing : db.Listing (db.source (wal.take plan.since)) plan.ref plan.cursor plan.rows

variable {plan db} {wal : List (Item V)} {j : ℕ}

theorem Fits.append (hf : plan.Fits db wal) {items : List (Item V)}
    (hitems : ∀ event ∈ changes items, eventRef event ≠ plan.ref) : plan.Fits db (wal ++ items) where
  order := hf.order
  size := hf.size
  since := Nat.le_trans hf.since (by simp)
  still event hevent := by
    rw [List.drop_append_of_le_length hf.since, changes_append] at hevent
    exact (List.mem_append.mp hevent).elim (hf.still event) (hitems event)
  listing := by
    rw [List.take_append_of_le_length hf.since]
    exact hf.listing

/-- The table has not changed. -/
theorem Fits.source_eq (hf : plan.Fits db wal) {s : ℕ} (hs : plan.since ≤ s) (key : String) :
    db.source (wal.take s) (plan.ref, key) = db.source (wal.take plan.since) (plan.ref, key) := by
  rw [Database.source, changes_take hs, Journal.replay_append, Journal.replay_frame]
  · rfl
  · intro event hevent htouches
    obtain ⟨q, hq, -, hitem⟩ := mem_between.mp hevent
    exact hf.still event (mem_changes_drop.mpr ⟨q, hq, hitem⟩) htouches.1

theorem chunk_short_iff (db : Database V) (hsize : 0 < plan.size) (hj : j < plan.count) :
    (plan.chunk db j).rows.length < plan.size ↔ j + 1 = plan.count := by
  rw [count, Nat.add_right_cancel_iff]
  exact length_page_lt_iff hsize (Nat.le_of_lt_succ hj)

/-- The rows up to a chunk, and its own. -/
theorem copied_chunk (hj : j < plan.count) : min plan.rows.length (j * plan.size) + (plan.chunk db j).rows.length =
    min plan.rows.length ((j + 1) * plan.size) := by
  have hle : j * plan.size ≤ plan.rows.length := mul_le_length (Nat.le_of_lt_succ hj)
  have hlength : (plan.chunk db j).rows.length = min plan.size (plan.rows.length - j * plan.size) := length_page ..
  rw [hlength, Nat.succ_mul]
  omega

theorem saved_full (hj : j + 1 < plan.count) : plan.saved db j =
    { cursor := (plan.chunk db j).lastCursor, rowsCopied := plan.copied + min plan.rows.length ((j + 1) * plan.size) } := by
  have hle : (j + 1) * plan.size ≤ plan.rows.length := mul_le_length (Nat.le_of_lt_succ hj)
  rw [saved, if_pos hj, Nat.min_eq_right hle]

theorem saved_last (hsize : 0 < plan.size) (hj : j + 1 = plan.count) : plan.saved db j =
    { done := true, rowsCopied := plan.copied + min plan.rows.length ((j + 1) * plan.size) } := by
  have hlt : plan.rows.length < (j + 1) * plan.size := hj ▸ length_lt_pages hsize plan.rows
  rw [saved, if_neg (by omega), Nat.min_eq_left (Nat.le_of_lt hlt)]

theorem saved_done_iff (j : ℕ) : (plan.saved db j).done = true ↔ plan.count ≤ j + 1 := by
  rw [saved]
  split
  · rename_i hlt
    simp [Nat.not_le.mpr hlt]
  · rename_i hge
    simp [Nat.not_lt.mp hge]

/-- The rows of a full chunk, with its last. -/
theorem chunk_full (db : Database V) (hsize : 0 < plan.size) (hj : j + 1 < plan.count) : ∃ before row,
    (plan.chunk db j).rows = before ++ [row] ∧ (plan.chunk db j).lastCursor = db.cursor plan.ref row.key := by
  have hne : (plan.chunk db j).rows ≠ [] := by
    intro hnil
    have hshort := (chunk_short_iff db hsize (Nat.lt_of_succ_lt hj)).mp (by rw [hnil]; exact hsize)
    omega
  refine ⟨_, _, (List.dropLast_append_getLast hne).symm, ?_⟩
  show ((plan.chunk db j).rows.getLast?.map fun row => db.cursor plan.ref row.key).getD [] = _
  rw [List.getLast?_eq_some_getLast hne]
  rfl

/-- The rows after the cursor of chunk `j` are those from page `j` on. -/
theorem Fits.listing_at (hf : plan.Fits db wal) {s : ℕ} (hs : plan.since ≤ s) (hj : j < plan.count) :
    db.Listing (db.source (wal.take s)) plan.ref (plan.cursorAt db j) (plan.rows.drop (j * plan.size)) := by
  induction j with
  | zero =>
    rw [Nat.zero_mul, List.drop_zero]
    refine ⟨fun row => ?_, hf.listing.sorted⟩
    rw [hf.source_eq hs]
    exact hf.listing.mem row
  | succ j ih =>
    obtain ⟨before, row, hrows, hlast⟩ := chunk_full db hf.size hj
    have hlist := ih (Nat.lt_of_succ_lt hj)
    rw [← page_append_drop, show page plan.size plan.rows j = before ++ [row] from hrows, List.append_assoc] at hlist
    rw [cursorAt, hlast]
    exact hlist.after hf.order

/-- **A select answers the next page.** -/
theorem Fits.select (hf : plan.Fits db wal) {s : ℕ} (hs : plan.since ≤ s) (hj : j < plan.count) {chunk : Chunk V}
    (hrows : db.FirstRows (db.source (wal.take s)) plan.ref (plan.cursorAt db j) plan.size chunk) :
    chunk = plan.chunk db j := by
  have heq : chunk.rows = (plan.chunk db j).rows := hrows.rows_eq hf.order (hf.listing_at hs hj)
  have hlast := hrows.lastCursor
  cases chunk
  dsimp only at heq hlast
  rw [hlast, heq]
  rfl

theorem Fits.firstRows (hf : plan.Fits db wal) {s : ℕ} (hs : plan.since ≤ s) (hj : j < plan.count) :
    db.FirstRows (db.source (wal.take s)) plan.ref (plan.cursorAt db j) plan.size (plan.chunk db j) :=
  (hf.listing_at hs hj).firstRows plan.size

end Plan

/-! ## The chunks of the run -/

section Mine

variable {plan : Plan V} {db : Database V} {h h' : History V} {p p' : Process V} {l i j : ℕ} {cursor : List String}

/-- Chunk `j` of the plan: the call is the run's, its watermarks come after the
run began, and it delivers all it has selected. -/
structure Mine (plan : Plan V) (db : Database V) (p : Process V) (l i j : ℕ) : Prop where
  registered : p.coordinator.Registered i
  lane : (p.calls i).lane = l
  table : (p.chunk i).table = plan.ref
  cursor : (p.calls i).cursor = plan.cursorAt db j
  low : ∀ low, (p.calls i).low = some low → plan.since ≤ low
  live : (p.calls i).stage ≠ .abandon ∧ (p.calls i).stage ≠ .failed
  counted : (p.chunk i).delivered = if (p.calls i).read.isSome then (p.chunk i).rowCount else 0

theorem mine_register (hcursor : plan.cursorAt db j = cursor) (pkCols : List String) :
    Mine plan db (p.register l plan.ref pkCols cursor) l (p.coordinator.chunkSeq + 1) j := by
  have hcall : (p.register l plan.ref pkCols cursor).calls (p.coordinator.chunkSeq + 1) = { lane := l, cursor } :=
    Function.update_self ..
  have hchunk : (p.register l plan.ref pkCols cursor).chunk (p.coordinator.chunkSeq + 1) =
      { table := plan.ref, id := chunkID p.coordinator.instanceID plan.ref (p.coordinator.chunkSeq + 1), pkCols,
        restart := p.coordinator.restart } := Function.update_self ..
  refine ⟨⟨Nat.le_refl _, Nat.succ_pos _⟩, ?_, ?_, ?_, ?_, ?_, ?_⟩
  · rw [hcall]
  · rw [hchunk]
  · rw [hcall, hcursor]
  · rw [hcall]
    exact fun low hlow => by cases hlow
  · simp [hcall]
  · rw [hcall, hchunk]
    rfl

/-- What was selected for it is the plan's chunk. -/
theorem Mine.selection (hm : Mine plan db p l i j) (hs : Sound db h p) (hf : plan.Fits db h.wal) (hj : j < plan.count)
    (hsize : p.coordinator.cfg.chunkSize = plan.size) {s : ℕ} {chunk : Chunk V}
    (hsel : (p.calls i).selection = some (s, chunk)) : chunk = plan.chunk db j := by
  obtain ⟨low, hlow, hlt, -, hrows⟩ := (hs.call i hm.registered).selection s chunk hsel
  rw [hm.table, hm.cursor, hsize] at hrows
  exact hf.select (Nat.le_trans (hm.low low hlow) (Nat.le_of_lt hlt)) hj hrows

/-- What it holds once it is published. -/
theorem Mine.published (hm : Mine plan db p l i j) (hs : Sound db h p) (hf : plan.Fits db h.wal) (hj : j < plan.count)
    (hsize : p.coordinator.cfg.chunkSize = plan.size) (hstage : (p.calls i).stage = .high ∨ (p.calls i).stage = .returned) :
    (p.calls i).selection.isSome ∧ (p.chunk i).rowCount = (plan.chunk db j).rows.length ∧
      (p.chunk i).lastCursor = (plan.chunk db j).lastCursor := by
  obtain ⟨s, chunk, hsel, hcount, hlast⟩ := (hs.call i hm.registered).published hstage
  obtain rfl := hm.selection hs hf hj hsize hsel
  exact ⟨by rw [hsel]; rfl, hcount, hlast⟩

/-- A delivered chunk has delivered every row. -/
theorem Mine.delivered (hm : Mine plan db p l i j) (hs : Sound db h p) (hf : plan.Fits db h.wal) (hj : j < plan.count)
    (hsize : p.coordinator.cfg.chunkSize = plan.size) (hstage : (p.calls i).stage = .returned) (hdone : (p.chunk i).done = true) :
    (p.chunk i).delivered = (plan.chunk db j).rows.length := by
  obtain ⟨-, hcount, -⟩ := hm.published hs hf hj hsize (.inr hstage)
  rw [hm.counted, hcount]
  rcases (hs.call i hm.registered).done hdone with ⟨s, chunk, hsel, hnil⟩ | ⟨low, read, -, hread, -⟩
  · rw [← hm.selection hs hf hj hsize hsel, hnil]
    exact ite_self _
  · rw [hread]
    rfl

/-- At its high watermark nothing it selected has been superseded. -/
theorem Mine.unseen (hm : Mine plan db p l i j) (hs : Sound db h p) (hf : plan.Fits db h.wal) {s : Stream V}
    (hstream : p.stream = some s) (hi : i ∈ p.coordinator.inflight) (hhigh : (p.calls i).high = some s.pos) :
    (Coordinator.unseen (p.chunk i)).length = (p.chunk i).rowCount := by
  obtain ⟨low, snap, chunk, hlow, hsel, -, -, -, hpending, hseen⟩ := hs.at_high hstream hi hhigh
  have hc := hs.call i hm.registered
  have hstage : (p.calls i).stage = .returned := by
    rcases hc.sent s.pos hhigh with hstage | hstage | hstage
    · exact hstage
    · exact absurd hstage hm.live.1
    · exact absurd hstage hm.live.2
  obtain ⟨snap', chunk', hsel', hcount, -⟩ := hc.published (.inr hstage)
  cases hsel.symm.trans hsel'
  rw [Coordinator.unseen, List.filter_eq_self.mpr, hpending, hcount]
  intro row hrow
  rw [decide_eq_true_eq, hseen row.key]
  rintro ⟨event, hevent, href, -⟩
  obtain ⟨q, hq, -, hitem⟩ := mem_between.mp hevent
  have hsince := hm.low low hlow
  exact hf.still event (mem_changes_drop.mpr ⟨q, by omega, hitem⟩) (href.trans hm.table)

omit [ToString V] in
/-- A watermark that is not the chunk's high one emits nothing of it. -/
theorem handleWatermark_delivered (lsn : String) (now : ℕ) {content : Option WatermarkPayload} (hi : p.highChunk content ≠ some i) :
    ((p.coordinator.handleWatermark lsn now content).2.chunks i).delivered = (p.chunk i).delivered := by
  unfold Coordinator.handleWatermark
  split
  · rfl
  · rename_i payload
    split
    · rfl
    · split
      · rfl
      · rename_i k hk
        split
        · exact p.coordinator.setChunk_same (f := ChunkInFlight.delivered) (by rfl) i
        · split
          · rename_i hmark
            have hne : i ≠ k := by
              rintro rfl
              exact hi (by simp [Process.highChunk, hmark, hk])
            exact congrArg ChunkInFlight.delivered (Function.update_of_ne hne _ _)
          · rfl

theorem Mine.takeMark (hm : Mine plan db p l i j) (hs : Sound db h p) (hf : plan.Fits db h.wal) {s : Stream V}
    (hstream : p.stream = some s) {content : Option WatermarkPayload} (hitem : h.wal[s.pos]? = some (.mark content))
    (lsn : String) (now : ℕ) : ((p.take s lsn now (.mark content)).chunk i).delivered =
      if ((p.take s lsn now (.mark content)).calls i).read.isSome then ((p.take s lsn now (.mark content)).chunk i).rowCount
      else 0 := by
  have hrows := (p.take_keeps hm.registered s lsn now (.mark content)).rowCount
  rw [hrows]
  by_cases hi : p.highChunk content = some i
  · -- the chunk's own high watermark
    obtain ⟨payload, rfl, hmark, hlookup⟩ := highChunk_eq_some hi
    obtain ⟨hin, hid⟩ := (Coordinator.lookup_eq_some hs.valid).mp hlookup
    obtain ⟨hslot, hown⟩ := hs.own_mark hitem hm.registered hid.symm
    obtain ⟨slot, chunk, mark⟩ := payload
    dsimp only at hmark hid hslot hown hlookup
    subst hmark hid hslot
    have hhigh : (p.calls i).high = some s.pos := hown.elim (fun hlow => by simp at hlow) And.left
    have hread : ((p.take s lsn now (.mark (some (p.watermark i "high")))).calls i).read.isSome = true := by
      simp only [Process.take, Process.handleWatermark, Process.watermark, Process.chunk, hi, Function.update_self]
      rfl
    refine Eq.trans ?_ (if_pos hread).symm
    rw [← hm.unseen hs hf hstream hin hhigh]
    simp only [Process.chunk, Process.take, Process.handleWatermark, Coordinator.handleWatermark_high hs.valid hin,
      Coordinator.setChunk, Function.update_self]
  · have hcall : (p.take s lsn now (.mark content)).calls i = p.calls i := by
      simp only [Process.take, Process.handleWatermark]
      cases hk : p.highChunk content with
      | none => rfl
      | some k => exact Function.update_of_ne (fun hik => hi (by rw [hk, hik])) _ _
    rw [hcall, ← hm.counted]
    exact handleWatermark_delivered lsn now hi

/-- **The run's chunk is kept by every step** that does not give it up. -/
theorem Mine.step (hm : Mine plan db p l i j) (hs : Sound db h p) (hf : plan.Fits db h.wal) {a : ProcessAct V}
    (hstep : p.step h a = some (h', p')) (hlive : (p'.calls i).stage ≠ .abandon ∧ (p'.calls i).stage ≠ .failed) :
    Mine plan db p' l i j := by
  obtain ⟨hreg, hlane⟩ := Process.step_lane hstep hm.registered
  by_cases ha : a.chunk? = some i
  · -- a step of `startChunk`, which reads nothing back
    have hown : ∀ {low high : Option ℕ} {selection : Option (ℕ × Chunk V)} {stage : Stage},
        p'.calls i = { p.calls i with low, high, selection, stage } → (∀ q, low = some q → plan.since ≤ q) →
        (p'.chunk i).table = (p.chunk i).table →
        (p'.chunk i).delivered = (if (p.calls i).read.isSome then (p'.chunk i).rowCount else 0) → Mine plan db p' l i j := by
      intro low high selection stage hcall hlow htable hcounted
      refine ⟨hreg, hlane.trans hm.lane, htable.trans hm.table, ?_, ?_, hlive, ?_⟩ <;> rw [hcall]
      · exact hm.cursor
      · exact hlow
      · exact hcounted
    cases Process.steps_of_step hstep with
    | emitLow hstage =>
      cases ha
      refine hown (Function.update_self ..) (fun q hq => ?_) rfl hm.counted
      rw [writtenAt_eq hq]
      exact hf.since
    | @select _ answer hstage =>
      cases ha
      cases answer <;> exact hown (Function.update_self ..) hm.low rfl hm.counted
    | @publish _ _ selected hstage hsel =>
      cases ha
      obtain ⟨-, hread⟩ := (hs.call i hm.registered).unread (by simp [hstage]) (by simp [hstage]) (by simp [hstage])
      refine hown (Function.update_self ..) hm.low ((p.coordinator.publish_evolves i selected).table i) ?_
      show ((p.coordinator.publish i selected).chunks i).delivered = _
      have hcounted := hm.counted
      rw [hread] at hcounted
      rw [Coordinator.publish_self, hread]
      exact hcounted
    | emitHigh hstage =>
      cases ha
      exact hown (Function.update_self ..) hm.low rfl hm.counted
    | fail hstage =>
      cases ha
      exact absurd hstage hm.live.1
    | _ => cases ha
  · have hk := Process.step_keeps hstep hm.registered fun hi => absurd hi ha
    have hother : (p'.chunk i).delivered = (if (p'.calls i).read.isSome then (p'.chunk i).rowCount else 0) →
        Mine plan db p' l i j := by
      intro hcounted
      obtain ⟨read, hcall⟩ := hk.call
      refine ⟨hreg, hlane.trans hm.lane, hk.table.trans hm.table, ?_, fun low hlow => hm.low low ?_, hlive, hcounted⟩
      · rw [hcall]
        exact hm.cursor
      · rw [hcall] at hlow
        exact hlow
    -- the chunk was not read, and has delivered what it had
    have hsame : p'.calls i = p.calls i → (p'.chunk i).delivered = (p.chunk i).delivered → Mine plan db p' l i j :=
      fun hcall hdelivered => hother (by rw [hcall, hdelivered, hk.rowCount]; exact hm.counted)
    have hne : ∀ {k : ℕ}, a.chunk? = some k → i ≠ k := fun hk hik => ha (by rw [hk, hik])
    cases Process.steps_of_step hstep with
    | register =>
      have hnew : i ≠ p.coordinator.chunkSeq + 1 := by
        have := hm.registered.1
        omega
      exact hsame (Function.update_of_ne hnew _ _) (congrArg ChunkInFlight.delivered (Function.update_of_ne hnew _ _))
    | emitLow | emitHigh => exact hsame (Function.update_of_ne (hne rfl) _ _) rfl
    | @select _ answer => cases answer <;> exact hsame (Function.update_of_ne (hne rfl) _ _) rfl
    | publish =>
      exact hsame (Function.update_of_ne (hne rfl) _ _)
        (congrArg ChunkInFlight.delivered (p.coordinator.publish_of_ne _ (hne rfl)))
    | @fail k =>
      refine hsame (Function.update_of_ne (hne rfl) _ _) ?_
      show ((p.coordinator.abandon [k]).chunks i).delivered = _
      rw [Coordinator.abandon_eq]
      rfl
    | @abandon chunks =>
      refine hsame rfl ?_
      show ((p.coordinator.abandon chunks).chunks i).delivered = _
      rw [Coordinator.abandon_eq]
      rfl
    | up => exact hsame rfl (congrArg ChunkInFlight.delivered (congrFun p.coordinator.onStreamStart_spec.2.1 i))
    | down => exact hsame rfl (congrArg ChunkInFlight.delivered (congrFun p.coordinator.onStreamStop_spec.2.1 i))
    | @take lsn now s item hstream hitem =>
      cases item with
      | change event =>
        obtain ⟨seen, hseen⟩ := @Coordinator.observe_frame V event _ none p.coordinator.inflight p.coordinator.chunks i
        exact hsame rfl (congrArg ChunkInFlight.delivered hseen :)
      | commit => exact hsame rfl rfl
      | mark content => exact hother (hm.takeMark hs hf hstream hitem lsn now)
    | @delivered _ _ content =>
      obtain ⟨done, hdone⟩ := p.coordinator.watermarkDelivered_frame content i
      exact hsame rfl (congrArg ChunkInFlight.delivered hdone :)

end Mine

end Gtc.Backfill
