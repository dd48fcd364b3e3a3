/-
What each critical section of the coordinator does to the chunks in flight.

Sequence numbers make the chunk ids of one process distinct, so a watermark
names one chunk (`lookup_eq_some`). `abandon_eq` is the loop that gives the
chunks of a call up, in one filter. `observe_spec` is the loop of `ObserveEvent`
in one line, under the only thing it needs: chunks of one table have the same
key columns.
-/
import Gtc.Backfill.Coordinator

namespace Gtc.Backfill

variable {V : Type}

/-! ## Chunk ids -/

theorem toList_chunkID (inst : String) (ref : TableRef) (seq : ℕ) :
    (chunkID inst ref seq).toList = (inst.toList ++ '-' :: ref.string.toList) ++ '-' :: Nat.toDigits 10 seq := by
  simp [chunkID]

theorem dash_notMem_toDigits (n : ℕ) : '-' ∉ Nat.toDigits 10 n := by
  intro h
  have := Nat.isDigit_of_mem_toDigits (by decide) (by decide) h
  exact absurd this (by decide)

variable {ref : TableRef}

/-- The sequence number is what follows the last dash. -/
theorem chunkID_seq_inj {inst inst' : String} {ref' : TableRef} {m n : ℕ}
    (h : chunkID inst ref m = chunkID inst' ref' n) : m = n := by
  have htext := congrArg (List.reverse ∘ String.toList) h
  simp only [Function.comp, toList_chunkID, List.reverse_append, List.reverse_cons, List.append_assoc,
    List.singleton_append] at htext
  have hdigits := (Lib.append_cons_inj_of_notMem (by simpa using dash_notMem_toDigits m)
    (by simpa using dash_notMem_toDigits n) htext).1
  rw [← @Nat.ofDigitChars_ten_toDigits m, List.reverse_injective hdigits, Nat.ofDigitChars_ten_toDigits]

/-- Processes whose instance ids differ, and hold no dash, make different
chunk ids. -/
theorem chunkID_instance_inj {inst inst' : String} {ref' : TableRef} {m n : ℕ} (hdash : '-' ∉ inst.toList)
    (hdash' : '-' ∉ inst'.toList) (h : chunkID inst ref m = chunkID inst' ref' n) : inst = inst' := by
  have htext := congrArg String.toList h
  simp only [toList_chunkID, List.append_assoc, List.cons_append] at htext
  exact String.toList_injective (Lib.append_cons_inj_of_notMem hdash hdash' htext).1

theorem readEvent_inj {lsn : String} {now : ℕ} {id : String} {row row' : Row V}
    (h : readEvent lsn now id ref row = readEvent lsn now id ref row') : row = row' := by
  simp only [readEvent, CDCEvent.mk.injEq, String.append_right_inj, Option.some.injEq] at h
  cases row
  cases row'
  simp_all

namespace Coordinator

/-! ## Looking up and removing chunks -/

/-- A sequence number that was given out. -/
def Registered (c : Coordinator V) (i : ℕ) : Prop := i ≤ c.chunkSeq ∧ 0 < i

/-- The chunks have the ids of their sequence numbers, and those in flight were
registered. -/
structure Valid (c : Coordinator V) : Prop where
  id : ∀ i, c.Registered i → (c.chunks i).id = chunkID c.instanceID (c.chunks i).table i
  inflight : ∀ i ∈ c.inflight, c.Registered i

variable {c : Coordinator V}

theorem Valid.id_inj (h : c.Valid) {i j : ℕ} (hi : c.Registered i) (hj : c.Registered j)
    (hid : (c.chunks i).id = (c.chunks j).id) : i = j := by
  rw [h.id i hi, h.id j hj] at hid
  exact chunkID_seq_inj hid

theorem lookup_eq_some (h : c.Valid) {id : String} {i : ℕ} :
    c.lookup id = some i ↔ i ∈ c.inflight ∧ (c.chunks i).id = id := by
  constructor
  · intro hl
    have hid := List.find?_some hl
    exact ⟨List.mem_of_find?_eq_some hl, by simpa using hid⟩
  · intro hi
    obtain ⟨hmem, hid⟩ := hi
    have hsome : (c.lookup id).isSome := List.find?_isSome.mpr ⟨i, hmem, by simpa using hid⟩
    obtain ⟨j, hj⟩ := Option.isSome_iff_exists.mp hsome
    have hjid : (c.chunks j).id = id := by simpa using List.find?_some hj
    have hji := h.id_inj (h.inflight j (List.mem_of_find?_eq_some hj)) (h.inflight i hmem) (hjid.trans hid.symm)
    rw [hj, hji]

theorem abandon_eq (c : Coordinator V) (is : List ℕ) :
    c.abandon is = { c with inflight := c.inflight.filter fun j => ∀ i ∈ is, (c.chunks j).id ≠ (c.chunks i).id } := by
  induction is generalizing c with
  | nil => simp [abandon]
  | cons i is ih =>
    have hstep : c.abandon (i :: is) = (c.delete (c.chunks i).id).abandon is := rfl
    rw [hstep, ih]
    simp [delete, List.filter_filter, Bool.and_comm]

/-! ## `ObserveEvent` -/

section Observe

variable {event : CDCEvent V} {pk : List String}

/-- The chunk waits for events of this table. -/
def Collects (event : CDCEvent V) (ch : ChunkInFlight V) : Prop := ch.collecting = true ∧ eventRef event = ch.table

theorem not_collects_iff {ch : ChunkInFlight V} :
    ¬ Collects event ch ↔ ¬ ch.collecting ∨ event.schema ≠ ch.table.schema ∨ event.table ≠ ch.table.table := by
  have href : eventRef event = ch.table ↔ event.schema = ch.table.schema ∧ event.table = ch.table.table := by
    cases ch.table
    simp [eventRef]
  simp only [Collects, href, not_and_or, ne_eq]

variable [ToString V]

/-- Only `seen` changes. -/
theorem observe_frame (key : Option String) (is : List ℕ) (chunks : ℕ → ChunkInFlight V) (i : ℕ) :
    ∃ seen, observe event key is chunks i = { chunks i with seen } := by
  induction is generalizing key chunks with
  | nil => exact ⟨_, rfl⟩
  | cons j is ih =>
    simp only [observe]
    split
    · exact ih key chunks
    · cases key <|> observedKey (chunks j).pkCols event with
      | none => exact ⟨_, rfl⟩
      | some key =>
        obtain ⟨seen, hseen⟩ := ih (some key) (Function.update chunks j { chunks j with seen := (chunks j).seen.insert key })
        by_cases hij : i = j
        · subst hij
          exact ⟨seen, by simpa only [Function.update_self] using hseen⟩
        · exact ⟨seen, by simpa only [Function.update_of_ne hij] using hseen⟩

/-- A chunk that does not wait for the event is left alone. -/
theorem observe_of_not_collects (key : Option String) (is : List ℕ) (chunks : ℕ → ChunkInFlight V) {i : ℕ}
    (hi : ¬ Collects event (chunks i)) : observe event key is chunks i = chunks i := by
  induction is generalizing key chunks with
  | nil => rfl
  | cons j is ih =>
    simp only [observe]
    split
    · exact ih key chunks hi
    · rename_i hj
      have hij : i ≠ j := by
        rintro rfl
        exact hj (not_collects_iff.mp hi)
      cases key <|> observedKey (chunks j).pkCols event with
      | none => rfl
      | some key =>
        have hupd := Function.update_of_ne hij { chunks j with seen := (chunks j).seen.insert key } chunks
        exact (ih (some key) _ (by rwa [hupd])).trans hupd

/-- Every chunk in flight that collects the event's table has seen the event's
key, if it has one, and nothing else. -/
theorem observe_spec (key : Option String) (is : List ℕ) (chunks : ℕ → ChunkInFlight V)
    (hkey : key = none ∨ key = observedKey pk event)
    (hpk : ∀ j ∈ is, (chunks j).table = eventRef event → (chunks j).pkCols = pk) (i : ℕ) (k : String) :
    k ∈ (observe event key is chunks i).seen ↔
      k ∈ (chunks i).seen ∨ i ∈ is ∧ Collects event (chunks i) ∧ observedKey pk event = some k := by
  induction is generalizing key chunks with
  | nil => simp [observe]
  | cons j is ih =>
    simp only [observe]
    by_cases hc : Collects event (chunks j)
    · rw [if_neg (fun h => not_collects_iff.mpr h hc)]
      have hobs : (key <|> observedKey (chunks j).pkCols event) = observedKey pk event := by
        rw [hpk j (by simp) hc.2.symm]
        rcases hkey with rfl | rfl
        · rfl
        · cases observedKey pk event <;> rfl
      rw [hobs]
      cases hk : observedKey pk event with
      | none => simp
      | some key' =>
        simp only
        rw [ih (some key') _ (Or.inr hk.symm)]
        · by_cases hij : i = j
          · subst hij
            have hc' : Collects event { chunks i with seen := (chunks i).seen.insert key' } := hc
            simp only [Function.update_self, List.mem_insert_iff, hc', hc, hk, Option.some.injEq, List.mem_cons,
              true_or, true_and]
            grind
          · simp only [Function.update_of_ne hij, List.mem_cons, hij, false_or, hk]
        · intro j' hj' ht
          by_cases hjj : j' = j
          · subst hjj
            rw [Function.update_self] at ht ⊢
            exact hpk j' (by simp) ht
          · rw [Function.update_of_ne hjj] at ht ⊢
            exact hpk j' (by simp [hj']) ht
    · rw [if_pos (not_collects_iff.mp hc), ih key chunks hkey fun j' hj' => hpk j' (by simp [hj'])]
      by_cases hij : i = j
      · subst hij
        simp [hc]
      · simp [hij]

end Observe

/-! ## What never changes -/

/-- Nothing was registered: chunks only leave the map, and a chunk keeps what it
was registered with. -/
structure Evolves (c c' : Coordinator V) : Prop where
  cfg : c'.cfg = c.cfg
  instanceID : c'.instanceID = c.instanceID
  chunkSeq : c'.chunkSeq = c.chunkSeq
  inflight : ∀ i ∈ c'.inflight, i ∈ c.inflight
  id : ∀ i, (c'.chunks i).id = (c.chunks i).id
  table : ∀ i, (c'.chunks i).table = (c.chunks i).table
  pkCols : ∀ i, (c'.chunks i).pkCols = (c.chunks i).pkCols

theorem Evolves.refl (c : Coordinator V) : Evolves c c := ⟨rfl, rfl, rfl, fun _ h => h, fun _ => rfl, fun _ => rfl, fun _ => rfl⟩

theorem Evolves.trans {c₁ c₂ c₃ : Coordinator V} (h₁ : Evolves c₁ c₂) (h₂ : Evolves c₂ c₃) : Evolves c₁ c₃ where
  cfg := h₂.cfg.trans h₁.cfg
  instanceID := h₂.instanceID.trans h₁.instanceID
  chunkSeq := h₂.chunkSeq.trans h₁.chunkSeq
  inflight i hi := h₁.inflight i (h₂.inflight i hi)
  id i := (h₂.id i).trans (h₁.id i)
  table i := (h₂.table i).trans (h₁.table i)
  pkCols i := (h₂.pkCols i).trans (h₁.pkCols i)

theorem Valid.evolves {c' : Coordinator V} (h : c.Valid) (he : Evolves c c') : c'.Valid where
  id i hi := by
    rw [he.id, he.instanceID, he.table]
    exact h.id i ⟨he.chunkSeq ▸ hi.1, hi.2⟩
  inflight i hi := by
    rw [Registered, he.chunkSeq]
    exact h.inflight i (he.inflight i hi)

theorem Registered.evolves {c' : Coordinator V} {i : ℕ} (hi : c.Registered i) (he : Evolves c c') : c'.Registered i :=
  ⟨he.chunkSeq ▸ hi.1, hi.2⟩

/-- What a chunk is written back with does not change. -/
theorem setChunk_same (c : Coordinator V) {α : Type} {f : ChunkInFlight V → α} {j : ℕ} {ch : ChunkInFlight V}
    (hf : f ch = f (c.chunks j)) (i : ℕ) : f ((c.setChunk j ch).chunks i) = f (c.chunks i) := by
  by_cases hij : i = j
  · subst hij
    simp [setChunk, hf]
  · simp [setChunk, hij]

/-- A chunk written back with what it was registered with. -/
theorem setChunk_evolves (c : Coordinator V) {i : ℕ} {ch : ChunkInFlight V} (hid : ch.id = (c.chunks i).id)
    (htable : ch.table = (c.chunks i).table) (hpk : ch.pkCols = (c.chunks i).pkCols) : Evolves c (c.setChunk i ch) := by
  exact ⟨rfl, rfl, rfl, fun _ h => h, c.setChunk_same hid, c.setChunk_same htable, c.setChunk_same hpk⟩

theorem filter_evolves (c : Coordinator V) (p : ℕ → Bool) : Evolves c { c with inflight := c.inflight.filter p } :=
  ⟨rfl, rfl, rfl, fun _ h => List.mem_of_mem_filter h, fun _ => rfl, fun _ => rfl, fun _ => rfl⟩

theorem finishChunk_evolves (c : Coordinator V) (i : ℕ) : Evolves c (c.finishChunk i) :=
  (filter_evolves c _).trans (setChunk_evolves _ rfl rfl rfl)

theorem observeEvent_evolves [ToString V] (c : Coordinator V) (event : CDCEvent V) : Evolves c (c.observeEvent event) := by
  refine ⟨rfl, rfl, rfl, fun _ h => h, fun i => ?_, fun i => ?_, fun i => ?_⟩ <;>
    obtain ⟨seen, h⟩ := @observe_frame V event _ none c.inflight c.chunks i <;> simp [observeEvent, h]

theorem handleWatermark_evolves (c : Coordinator V) (lsn : String) (now : ℕ) (content : Option WatermarkPayload) :
    Evolves c (c.handleWatermark lsn now content).2 := by
  unfold handleWatermark
  repeat' split
  all_goals first | exact Evolves.refl c | exact setChunk_evolves c rfl rfl rfl

theorem watermarkDelivered_evolves (c : Coordinator V) (content : Option WatermarkPayload) :
    Evolves c (c.watermarkDelivered content) := by
  unfold watermarkDelivered
  repeat' split
  all_goals first | exact Evolves.refl c | exact finishChunk_evolves c _

theorem publish_evolves (c : Coordinator V) (i : ℕ) (selected : Chunk V) : Evolves c (c.publish i selected) := by
  simp only [publish]
  split
  · refine Evolves.trans ?_ (finishChunk_evolves _ i)
    exact setChunk_evolves c rfl rfl rfl
  · exact setChunk_evolves c rfl rfl rfl

theorem abandon_evolves (c : Coordinator V) (is : List ℕ) : Evolves c (c.abandon is) := by
  rw [abandon_eq]
  exact filter_evolves c _

/-- A session begins with no chunk in flight. -/
theorem onStreamStart_spec (c : Coordinator V) :
    Evolves c c.onStreamStart ∧ c.onStreamStart.chunks = c.chunks ∧ c.onStreamStart.inflight = [] := by
  simp only [onStreamStart]
  split
  · rename_i hempty
    exact ⟨⟨rfl, rfl, rfl, fun _ h => h, fun _ => rfl, fun _ => rfl, fun _ => rfl⟩, rfl, hempty⟩
  · exact ⟨⟨rfl, rfl, rfl, fun i hi => absurd hi (by simp [restartLocked]), fun _ => rfl, fun _ => rfl, fun _ => rfl⟩, rfl, rfl⟩

/-- A session ends with no chunk in flight. -/
theorem onStreamStop_spec (c : Coordinator V) :
    Evolves c c.onStreamStop ∧ c.onStreamStop.chunks = c.chunks ∧ c.onStreamStop.inflight = [] := by
  simp only [onStreamStop]
  split
  · rename_i hempty
    exact ⟨⟨rfl, rfl, rfl, fun _ h => h, fun _ => rfl, fun _ => rfl, fun _ => rfl⟩, rfl, hempty⟩
  · exact ⟨⟨rfl, rfl, rfl, fun i hi => absurd hi (by simp [restartLocked]), fun _ => rfl, fun _ => rfl, fun _ => rfl⟩, rfl, rfl⟩

/-! ## What changes in one chunk -/

theorem handleWatermark_low (h : c.Valid) {i : ℕ} (hi : i ∈ c.inflight) (lsn : String) (now : ℕ) :
    c.handleWatermark lsn now (some ⟨c.cfg.slotName, (c.chunks i).id, "low"⟩) =
      ([], c.setChunk i { c.chunks i with collecting := true }) := by
  have hl : c.lookup (c.chunks i).id = some i := (lookup_eq_some h).mpr ⟨hi, rfl⟩
  simp [handleWatermark, hl]

theorem handleWatermark_high (h : c.Valid) {i : ℕ} (hi : i ∈ c.inflight) (lsn : String) (now : ℕ) :
    c.handleWatermark lsn now (some ⟨c.cfg.slotName, (c.chunks i).id, "high"⟩) =
      ((unseen (c.chunks i)).map (readEvent lsn now (c.chunks i).id (c.chunks i).table),
        c.setChunk i { c.chunks i with collecting := false, delivered := (unseen (c.chunks i)).length, pending := [] }) := by
  have hl : c.lookup (c.chunks i).id = some i := (lookup_eq_some h).mpr ⟨hi, rfl⟩
  simp [handleWatermark, hl]

/-- Only the watermarks of chunks in flight do anything. -/
theorem handleWatermark_foreign (h : c.Valid) {content : Option WatermarkPayload}
    (hne : ∀ i ∈ c.inflight, ∀ mark, content = some ⟨c.cfg.slotName, (c.chunks i).id, mark⟩ → mark ≠ "low" ∧ mark ≠ "high")
    (lsn : String) (now : ℕ) : c.handleWatermark lsn now content = ([], c) := by
  unfold handleWatermark
  split
  · rfl
  · rename_i payload
    split
    · rfl
    · rename_i hslot
      split
      · rfl
      · rename_i i hi
        obtain ⟨hmem, hid⟩ := (lookup_eq_some h).mp hi
        obtain ⟨hlow, hhigh⟩ := hne i hmem payload.mark (by rw [hid, ← not_not.mp hslot])
        rw [if_neg hlow, if_neg hhigh]

/-- A watermark changes no chunk but its own. -/
theorem handleWatermark_other (h : c.Valid) {lsn : String} {now : ℕ}
    {content : Option WatermarkPayload} {i : ℕ} (hne : ∀ payload, content = some payload → (c.chunks i).id ≠ payload.chunk) :
    (c.handleWatermark lsn now content).2.chunks i = c.chunks i := by
  unfold handleWatermark
  split
  · rfl
  · rename_i payload
    split
    · rfl
    · split
      · rfl
      · rename_i j hj
        have hij : i ≠ j := by
          rintro rfl
          exact hne payload rfl ((lookup_eq_some h).mp hj).2
        split
        · exact Function.update_of_ne hij _ _
        · split
          · exact Function.update_of_ne hij _ _
          · rfl

theorem finishChunk_frame (c : Coordinator V) (i j : ℕ) : ∃ done, (c.finishChunk i).chunks j = { c.chunks j with done } := by
  by_cases hij : j = i
  · subst hij
    exact ⟨true, by simp [finishChunk, setChunk]⟩
  · exact ⟨(c.chunks j).done, by simp [finishChunk, setChunk, delete, hij]⟩

theorem watermarkDelivered_frame (c : Coordinator V) (content : Option WatermarkPayload) (j : ℕ) :
    ∃ done, (c.watermarkDelivered content).chunks j = { c.chunks j with done } := by
  unfold watermarkDelivered
  repeat' split
  all_goals first | exact ⟨_, rfl⟩ | exact finishChunk_frame c _ j

theorem publish_self (c : Coordinator V) (i : ℕ) (selected : Chunk V) :
    (c.publish i selected).chunks i =
      { c.chunks i with
        pending := selected.rows, rowCount := selected.rows.length, lastCursor := selected.lastCursor
        done := if selected.rows.length = 0 then true else (c.chunks i).done } := by
  simp only [publish]
  split <;> simp [finishChunk, setChunk]

theorem publish_of_ne (c : Coordinator V) {i : ℕ} (selected : Chunk V) {j : ℕ} (hj : j ≠ i) :
    (c.publish i selected).chunks j = c.chunks j := by
  simp only [publish]
  split <;> simp [finishChunk, setChunk, delete, hj]

theorem register_valid (h : c.Valid) (ref : TableRef) (pkCols : List String) : (c.register ref pkCols).Valid where
  id i hi := by
    by_cases his : i = c.chunkSeq + 1
    · subst his
      simp [register]
    · have hle : i ≤ c.chunkSeq := Nat.le_of_lt_succ (Nat.lt_of_le_of_ne hi.1 his)
      simpa [register, his] using h.id i ⟨hle, hi.2⟩
  inflight i hi := by
    rcases List.mem_append.mp hi with hi | hi
    · exact ⟨Nat.le_succ_of_le (h.inflight i hi).1, (h.inflight i hi).2⟩
    · rw [List.mem_singleton.mp hi]
      exact ⟨Nat.le_refl _, Nat.succ_pos _⟩

end Coordinator

end Gtc.Backfill
