/-
Rows that a live change removed while their chunk was between its watermarks,
and whether the READ events at the high watermark bring them back.

`ObserveEvent` takes one key from an event: that of `OldData` for a DELETE, of
`NewData` otherwise. An UPDATE that moves a row to another key, one whose key
columns are in `OldData` only, and a TRUNCATE remove rows under keys it does
not take. Such a row is emitted unless some other event of the chunk's window
carries its key.
-/
import Gtc.Backfill.CoordinatorFacts

namespace Gtc.Backfill

variable {V : Type}

/-! ## Between the watermarks -/

/-- What the stream and the lanes do to the coordinator while a chunk is
between its watermarks. -/
inductive Traffic (V : Type) where
  | event (event : CDCEvent V)
  | watermark (lsn : String) (now : ℕ) (content : Option WatermarkPayload)
  | delivered (content : Option WatermarkPayload)
  | register (ref : TableRef) (pkCols : List String)
  | publish (i : ℕ) (selected : Chunk V)
  | abandon (chunks : List ℕ)

namespace Coordinator

def handle [ToString V] (c : Coordinator V) : Traffic V → Coordinator V
  | .event event => c.observeEvent event
  | .watermark lsn now content => (c.handleWatermark lsn now content).2
  | .delivered content => c.watermarkDelivered content
  | .register ref pkCols => c.register ref pkCols
  | .publish i selected => c.publish i selected
  | .abandon chunks => c.abandon chunks

def handleAll [ToString V] (c : Coordinator V) (traffic : List (Traffic V)) : Coordinator V := traffic.foldl handle c

end Coordinator

/-- The traffic is about other chunks: no watermark is the chunk's own, and
chunks of its table have its key columns, as those of one run do. -/
def Quiet (ch : ChunkInFlight V) : Traffic V → Prop
  | .watermark _ _ (some payload) => payload.chunk ≠ ch.id
  | .register ref pkCols => ref = ch.table → pkCols = ch.pkCols
  | _ => True

def Traffic.event? : Traffic V → Option (CDCEvent V)
  | .event e => some e
  | _ => none

def liveEvents (traffic : List (Traffic V)) : List (CDCEvent V) := traffic.filterMap Traffic.event?

/-- An event of the table that `ObserveEvent` files under `key`. -/
def Files [ToString V] (ch : ChunkInFlight V) (event : CDCEvent V) (key : String) : Prop :=
  eventRef event = ch.table ∧ observedKey ch.pkCols event = some key

/-- Chunk `i` is `ch` as it was registered, and collects. -/
structure Open (ch : ChunkInFlight V) (i : ℕ) (c : Coordinator V) : Prop where
  valid : c.Valid
  seq : i ≤ c.chunkSeq
  id : (c.chunks i).id = ch.id
  table : (c.chunks i).table = ch.table
  collecting : (c.chunks i).collecting = true
  pkCols : ∀ j ∈ c.inflight, (c.chunks j).table = ch.table → (c.chunks j).pkCols = ch.pkCols

variable {ch : ChunkInFlight V} {i : ℕ} {c : Coordinator V}

theorem Open.evolves {c' : Coordinator V} (h : Open ch i c) (he : c.Evolves c')
    (hcollecting : (c'.chunks i).collecting = (c.chunks i).collecting) : Open ch i c' where
  valid := h.valid.evolves he
  seq := he.chunkSeq ▸ h.seq
  id := (he.id i).trans h.id
  table := (he.table i).trans h.table
  collecting := hcollecting.trans h.collecting
  pkCols j hj ht := (he.pkCols j).trans (h.pkCols j (he.inflight j hj) ((he.table j).symm.trans ht))

variable [ToString V]

theorem Open.handle {t : Traffic V} (h : Open ch i c) (hq : Quiet ch t) (hin : i ∈ (c.handle t).inflight) :
    i ∈ c.inflight ∧ Open ch i (c.handle t) ∧
      ∀ key, key ∈ ((c.handle t).chunks i).seen ↔ key ∈ (c.chunks i).seen ∨ ∃ event ∈ liveEvents [t], Files ch event key := by
  cases t with
  | event event =>
    have he := c.observeEvent_evolves event
    have hc : i ∈ c.inflight := he.inflight i hin
    obtain ⟨seen, hframe⟩ := @Coordinator.observe_frame V event _ none c.inflight c.chunks i
    refine ⟨hc, h.evolves he (by simp [Coordinator.handle, Coordinator.observeEvent, hframe]), fun key => ?_⟩
    have hcollects : Coordinator.Collects event (c.chunks i) ↔ eventRef event = ch.table := by
      simp [Coordinator.Collects, h.collecting, h.table]
    by_cases href : eventRef event = ch.table
    · have hspec := @Coordinator.observe_spec V event ch.pkCols _ none c.inflight c.chunks (.inl rfl)
        (fun j hj ht => h.pkCols j hj (ht.trans href)) i key
      simpa [Coordinator.handle, Coordinator.observeEvent, liveEvents, Traffic.event?, Files, hc, href, hcollects]
        using hspec
    · have hsame := @Coordinator.observe_of_not_collects V event _ none c.inflight c.chunks i (by rwa [hcollects])
      simp [Coordinator.handle, Coordinator.observeEvent, hsame, liveEvents, Traffic.event?, Files, href]
  | watermark lsn now content =>
    have he := c.handleWatermark_evolves lsn now content
    have hsame : (c.handleWatermark lsn now content).2.chunks i = c.chunks i :=
      Coordinator.handleWatermark_other h.valid fun payload hp hid => by
        subst hp
        exact hq (hid.symm.trans h.id)
    refine ⟨he.inflight i hin, h.evolves he (by simp [Coordinator.handle, hsame]), fun key => ?_⟩
    simp [Coordinator.handle, hsame, liveEvents, Traffic.event?]
  | delivered content =>
    have he := c.watermarkDelivered_evolves content
    obtain ⟨done, hdone⟩ := c.watermarkDelivered_frame content i
    refine ⟨he.inflight i hin, h.evolves he (by simp [Coordinator.handle, hdone]), fun key => ?_⟩
    simp [Coordinator.handle, hdone, liveEvents, Traffic.event?]
  | register ref pkCols =>
    have hne : i ≠ c.chunkSeq + 1 := by
      have := h.seq
      omega
    have hsame : (c.register ref pkCols).chunks i = c.chunks i := Function.update_of_ne hne _ _
    have hc : i ∈ c.inflight := by simpa [Coordinator.handle, Coordinator.register, hne] using hin
    refine ⟨hc, ?_, fun key => by simp [Coordinator.handle, hsame, liveEvents, Traffic.event?]⟩
    refine ⟨Coordinator.register_valid h.valid ref pkCols, Nat.le_succ_of_le h.seq, ?_, ?_, ?_, fun j hj ht => ?_⟩
    · exact (congrArg ChunkInFlight.id hsame).trans h.id
    · exact (congrArg ChunkInFlight.table hsame).trans h.table
    · exact (congrArg ChunkInFlight.collecting hsame).trans h.collecting
    · by_cases hj' : j = c.chunkSeq + 1
      · subst hj'
        simp only [Coordinator.handle, Coordinator.register, Function.update_self] at ht ⊢
        exact hq ht
      · have hmem : j ∈ c.inflight := by simpa [Coordinator.handle, Coordinator.register, hj'] using hj
        have hj'' : (c.register ref pkCols).chunks j = c.chunks j := Function.update_of_ne hj' _ _
        rw [Coordinator.handle, hj''] at ht ⊢
        exact h.pkCols j hmem ht
  | publish j selected =>
    have he := c.publish_evolves j selected
    have hsame : ((c.publish j selected).chunks i).collecting = (c.chunks i).collecting ∧
        ((c.publish j selected).chunks i).seen = (c.chunks i).seen := by
      by_cases hij : i = j
      · subst hij
        rw [Coordinator.publish_self]
        exact ⟨rfl, rfl⟩
      · rw [Coordinator.publish_of_ne c selected hij]
        exact ⟨rfl, rfl⟩
    refine ⟨he.inflight i hin, h.evolves he hsame.1, fun key => ?_⟩
    simp [Coordinator.handle, hsame, liveEvents, Traffic.event?]
  | abandon chunks =>
    have he := c.abandon_evolves chunks
    have hsame : (c.abandon chunks).chunks = c.chunks := by rw [Coordinator.abandon_eq]
    refine ⟨he.inflight i hin, h.evolves he (by simp [Coordinator.handle, hsame]), fun key => ?_⟩
    simp [Coordinator.handle, hsame, liveEvents, Traffic.event?]

namespace Coordinator

theorem handle_evolves (c : Coordinator V) (t : Traffic V) :
    c.Evolves (c.handle t) ∨ ∃ ref pkCols, c.handle t = c.register ref pkCols := by
  cases t with
  | event event => exact .inl (c.observeEvent_evolves event)
  | watermark lsn now content => exact .inl (c.handleWatermark_evolves lsn now content)
  | delivered content => exact .inl (c.watermarkDelivered_evolves content)
  | register ref pkCols => exact .inr ⟨ref, pkCols, rfl⟩
  | publish j selected => exact .inl (c.publish_evolves j selected)
  | abandon chunks => exact .inl (c.abandon_evolves chunks)

/-- A chunk in flight at the end was in flight all along: only the next
sequence number ever enters the map. -/
theorem mem_of_mem_handleAll (ts : List (Traffic V)) {c : Coordinator V} (hi : i ≤ c.chunkSeq)
    (hin : i ∈ (c.handleAll ts).inflight) : i ∈ c.inflight := by
  induction ts generalizing c with
  | nil => exact hin
  | cons t ts ih =>
    rcases c.handle_evolves t with he | ⟨ref, pkCols, he⟩
    · exact he.inflight i (ih (he.chunkSeq ▸ hi) hin)
    · have hmem : i ∈ (c.handle t).inflight := ih (by rw [he]; exact Nat.le_succ_of_le hi) hin
      have hne : i ≠ c.chunkSeq + 1 := by omega
      simpa [he, register, hne] using hmem

end Coordinator

omit [ToString V] in
theorem liveEvents_cons (t : Traffic V) (ts : List (Traffic V)) : liveEvents (t :: ts) = liveEvents [t] ++ liveEvents ts := by
  simp only [liveEvents, ← List.filterMap_append, List.singleton_append]

/-- The keys a chunk has seen are those of the events that came by. -/
theorem Open.handleAll {traffic : List (Traffic V)} (h : Open ch i c) (hq : ∀ t ∈ traffic, Quiet ch t)
    (hin : i ∈ (c.handleAll traffic).inflight) :
    Open ch i (c.handleAll traffic) ∧ ∀ key, key ∈ ((c.handleAll traffic).chunks i).seen ↔
      key ∈ (c.chunks i).seen ∨ ∃ event ∈ liveEvents traffic, Files ch event key := by
  induction traffic generalizing c with
  | nil => exact ⟨h, fun key => by simp [Coordinator.handleAll, liveEvents]⟩
  | cons t ts ih =>
    have hseq : i ≤ (c.handle t).chunkSeq := by
      rcases c.handle_evolves t with he | ⟨ref, pkCols, he⟩
      · exact he.chunkSeq ▸ h.seq
      · rw [he]
        exact Nat.le_succ_of_le h.seq
    obtain ⟨-, hopen, hseen⟩ := h.handle (hq t (by simp)) (Coordinator.mem_of_mem_handleAll ts hseq hin)
    obtain ⟨hend, hseen'⟩ := ih hopen (fun t' ht' => hq t' (by simp [ht'])) hin
    refine ⟨hend, fun key => (hseen' key).trans ?_⟩
    rw [hseen key, liveEvents_cons t ts]
    simp only [List.mem_append, or_and_right, exists_or]
    exact or_assoc

/-! ## Rows that are gone -/

/-- An UPDATE that moves the row `key` to another key. -/
def Moves (pkCols : List String) (event : CDCEvent V) (key : String) : Prop :=
  event.operation = .update ∧ rowKey pkCols event.oldData = some key ∧
    ∃ key', rowKey pkCols event.newData = some key' ∧ key' ≠ key

/-- An UPDATE of the row `key` whose key columns are in `OldData` only. -/
def KeyInOldOnly (pkCols : List String) (event : CDCEvent V) (key : String) : Prop :=
  event.operation = .update ∧ rowKey pkCols event.oldData = some key ∧ rowKey pkCols event.newData = none

/-- A live change removed or replaced the row, as the select may have seen it:
an UPDATE anywhere between the watermarks, or a TRUNCATE after the select. -/
def Gone (ch : ChunkInFlight V) (before after : List (Traffic V)) (row : Row V) : Prop :=
  (∃ event ∈ liveEvents (before ++ after), eventRef event = ch.table ∧
    (Moves ch.pkCols event row.key ∨ KeyInOldOnly ch.pkCols event row.key)) ∨
  ∃ event ∈ liveEvents after, eventRef event = ch.table ∧ event.operation = .truncate

/-- The chunk is registered, and has seen nothing; the chunks of its table have
its key columns. -/
structure Fresh (c : Coordinator V) (i : ℕ) : Prop where
  valid : c.Valid
  inflight : i ∈ c.inflight
  seen : (c.chunks i).seen = []
  pkCols : ∀ j ∈ c.inflight, (c.chunks j).table = (c.chunks i).table → (c.chunks j).pkCols = (c.chunks i).pkCols

/-- The low watermark of chunk `i` arrives, then other traffic. -/
def Coordinator.window (c : Coordinator V) (i : ℕ) (lsn : String) (now : ℕ) (traffic : List (Traffic V)) : Coordinator V :=
  (c.handleWatermark lsn now (some ⟨c.cfg.slotName, (c.chunks i).id, "low"⟩)).2.handleAll traffic

/-- What `HandleWatermark` returns for the high watermark of chunk `i`. -/
def Coordinator.emitted (c : Coordinator V) (i : ℕ) (lsn : String) (now : ℕ) : List (CDCEvent V) :=
  (c.handleWatermark lsn now (some ⟨c.cfg.slotName, (c.chunks i).id, "high"⟩)).1

omit [ToString V] in
theorem Fresh.opens (h : Fresh c i) (lsn : String) (now : ℕ) :
    Open (c.chunks i) i (c.handleWatermark lsn now (some ⟨c.cfg.slotName, (c.chunks i).id, "low"⟩)).2 := by
  have he := c.handleWatermark_evolves lsn now (some ⟨c.cfg.slotName, (c.chunks i).id, "low"⟩)
  refine ⟨h.valid.evolves he, he.chunkSeq ▸ (h.valid.inflight i h.inflight).1, he.id i, he.table i, ?_, fun j hj ht => ?_⟩
  · rw [Coordinator.handleWatermark_low h.valid h.inflight]
    simp [Coordinator.setChunk]
  · exact (he.pkCols j).trans (h.pkCols j (he.inflight j hj) ((he.table j).symm.trans ht))

theorem window_spec (h : Fresh c i) {lsn : String} {now : ℕ} {traffic : List (Traffic V)}
    (hq : ∀ t ∈ traffic, Quiet (c.chunks i) t) (hin : i ∈ (c.window i lsn now traffic).inflight) :
    Open (c.chunks i) i (c.window i lsn now traffic) ∧
      ∀ key, key ∈ ((c.window i lsn now traffic).chunks i).seen ↔
        ∃ event ∈ liveEvents traffic, Files (c.chunks i) event key := by
  obtain ⟨hopen, hseen⟩ := (h.opens lsn now).handleAll hq hin
  refine ⟨hopen, fun key => (hseen key).trans ?_⟩
  rw [Coordinator.handleWatermark_low h.valid h.inflight]
  simp [Coordinator.setChunk, h.seen]

/-- A pending row is emitted when no event between the watermarks was filed
under its key. -/
theorem readEvent_mem_emitted_iff (h : Fresh c i) {lsn : String} {now : ℕ} {traffic : List (Traffic V)}
    (hq : ∀ t ∈ traffic, Quiet (c.chunks i) t) (hin : i ∈ (c.window i lsn now traffic).inflight) {lsn' : String} {now' : ℕ}
    {row : Row V} (hrow : row ∈ ((c.window i lsn now traffic).chunks i).pending) :
    readEvent lsn' now' (c.chunks i).id (c.chunks i).table row ∈ (c.window i lsn now traffic).emitted i lsn' now' ↔
      ¬ ∃ event ∈ liveEvents traffic, Files (c.chunks i) event row.key := by
  obtain ⟨hopen, hseen⟩ := window_spec h hq hin
  rw [Coordinator.emitted, Coordinator.handleWatermark_high hopen.valid hin, ← hseen row.key, hopen.id, hopen.table]
  simp only [Coordinator.unseen, List.mem_map, List.mem_filter, decide_eq_true_eq]
  constructor
  · intro hm
    obtain ⟨row', ⟨-, hunseen⟩, heq⟩ := hm
    rwa [readEvent_inj heq] at hunseen
  · intro hunseen
    exact ⟨row, ⟨hrow, hunseen⟩, rfl⟩

/-- **Resurrection**: the high watermark emits no row that is gone exactly when
every such row's key was also filed for some event between the watermarks. The
select lies between `before` and `after`. -/
theorem gone_rows_not_emitted_iff (h : Fresh c i) {lsn : String} {now : ℕ} {before after : List (Traffic V)}
    (hq : ∀ t ∈ before ++ after, Quiet (c.chunks i) t) (hin : i ∈ (c.window i lsn now (before ++ after)).inflight)
    (lsn' : String) (now' : ℕ) :
    (∀ row ∈ ((c.window i lsn now (before ++ after)).chunks i).pending, Gone (c.chunks i) before after row →
      readEvent lsn' now' (c.chunks i).id (c.chunks i).table row ∉
        (c.window i lsn now (before ++ after)).emitted i lsn' now') ↔
    ∀ row ∈ ((c.window i lsn now (before ++ after)).chunks i).pending, Gone (c.chunks i) before after row →
      ∃ event ∈ liveEvents (before ++ after), Files (c.chunks i) event row.key := by
  refine forall₃_congr fun row hrow _ => ?_
  rw [readEvent_mem_emitted_iff h hq hin hrow, not_not]

/-! ## One row -/

/-- A chunk of `users` in flight, with one row selected. -/
def oneRowSelected : Coordinator ℕ :=
  ((newCoordinator { slotName := "gtc", chunkSize := 10, lanes := 1 } "7f3a").register users ["id"]).publish 1
    { rows := [firstUser], lastCursor := ["1"] }

/-- `UPDATE users SET id = 2 WHERE id = 1`. -/
def moved : CDCEvent ℕ := userEvent .update (some [("id", some 1)]) (some [("id", some 2)])

/-- An UPDATE of row 1 whose id is not in the new tuple. -/
def keyInOld : CDCEvent ℕ := userEvent .update (some [("id", some 1)]) (some [("visits", some 9)])

def truncated : CDCEvent ℕ := userEvent .truncate none none

theorem oneRowSelected_fresh : Fresh oneRowSelected 1 where
  valid := by
    refine ⟨fun i hi => ?_, fun i hi => ?_⟩
    · obtain rfl : i = 1 := Nat.le_antisymm hi.1 hi.2
      rfl
    · obtain rfl : i = 1 := List.mem_singleton.mp hi
      exact ⟨by decide, by decide⟩
  inflight := by decide
  seen := rfl
  pkCols := by decide

/-- The row id 1 is inserted again after it was moved: its key is filed, and
the row is not emitted. -/
theorem gone_rows_not_emitted_iff_reinserted :
    readEvent "0/30" 0 (oneRowSelected.chunks 1).id users firstUser ∉
      (oneRowSelected.window 1 "0/10" 0
        ([] ++ [.event moved, .event (userEvent .insert none (some [("id", some 1)]))])).emitted 1 "0/30" 0 := by
  have hgone : Gone (oneRowSelected.chunks 1) []
      [.event moved, .event (userEvent .insert none (some [("id", some 1)]))] firstUser :=
    .inl ⟨moved, by decide, by decide, .inl ⟨rfl, by decide, "2", by decide, by decide⟩⟩
  refine (gone_rows_not_emitted_iff oneRowSelected_fresh (by simp [Quiet]) (by decide) "0/30" 0).mpr
    (fun row hrow _ => ⟨userEvent .insert none (some [("id", some 1)]), by decide, by decide, ?_⟩) firstUser
    (by decide) hgone
  obtain rfl : row = firstUser := List.mem_singleton.mp hrow
  decide

/-- The event makes row 1 go away after the select, and the row is emitted. -/
def EmittedDespite (event : CDCEvent ℕ) : Prop :=
  Gone (oneRowSelected.chunks 1) [] [.event event] firstUser ∧
    readEvent "0/30" 0 (oneRowSelected.chunks 1).id users firstUser ∈
      (oneRowSelected.window 1 "0/10" 0 [.event event]).emitted 1 "0/30" 0

/-- Row 1 is moved, or updated with its key in the old tuple only, or the table
is truncated. -/
theorem gone_row_emitted : EmittedDespite moved ∧ EmittedDespite keyInOld ∧ EmittedDespite truncated := by
  refine ⟨⟨.inl ⟨moved, by decide, by decide, .inl ⟨rfl, by decide, "2", by decide, by decide⟩⟩, by decide⟩,
    ⟨.inl ⟨keyInOld, by decide, by decide, .inr ⟨rfl, by decide, by decide⟩⟩, by decide⟩,
    ⟨.inr ⟨truncated, by decide, by decide, rfl⟩, by decide⟩⟩

end Gtc.Backfill
