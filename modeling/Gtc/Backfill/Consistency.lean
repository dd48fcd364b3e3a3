/-
The watermark algorithm is consistent: a sink that applies what a session
emits, in order, holds the source's rows for every key it was told about.

The source and the sink are the two sides of a `Lib.Replica`. A live change is
a write at both, since it is emitted when the session gets to it. The rows of a
chunk refresh the sink: a row that no live event between the watermarks
superseded has not changed since the select, so at the high watermark it is
still what the source holds.
-/
import Gtc.Backfill.Brackets
import Gtc.Lib.History

namespace Gtc.Backfill

open Lib

variable {V : Type} [ToString V]

/-! ## The sink -/

section Sink

variable (pk : TableRef → List String)

/-- The sink stores the row of a READ, an INSERT or an UPDATE under its key,
and removes the row of a DELETE. -/
def deliver (rows : Contents V) (event : CDCEvent V) : Contents V :=
  match observedKey (pk (eventRef event)) event with
  | some key => Function.update rows (eventRef event, key) (if event.operation = .delete then none else event.newData)
  | none => rows

def sink (rows : Contents V) (events : List (CDCEvent V)) : Contents V := events.foldl (deliver pk) rows

@[simp] theorem sink_append (rows : Contents V) (events events' : List (CDCEvent V)) :
    sink pk rows (events ++ events') = sink pk (sink pk rows events) events' := List.foldl_append

end Sink

/-! ## Live changes -/

/-- An INSERT, a DELETE, or an UPDATE that keeps the key; it carries the key of
its row, and the full row if it leaves one. -/
structure LiveChange (pk : TableRef → List String) (event : CDCEvent V) (key : String) : Prop where
  operation : event.operation = .insert ∨ event.operation = .update ∨ event.operation = .delete
  observed : observedKey (pk (eventRef event)) event = some key
  old : ∀ key', rowKey (pk (eventRef event)) event.oldData = some key' → key' = key
  new : ∀ key', rowKey (pk (eventRef event)) event.newData = some key' → key' = key
  full : event.unchangedToastColumns = []

variable {pk : TableRef → List String} {event : CDCEvent V} {key : String}

theorem LiveChange.apply_eq (h : LiveChange pk event key) (rows : Contents V) :
    applyChange pk event rows =
      Function.update rows (eventRef event, key) (if event.operation = .delete then none else event.newData) := by
  funext row
  obtain ⟨ref, k⟩ := row
  by_cases href : eventRef event = ref
  · subst href
    have hobs := h.observed
    by_cases hk : k = key
    · subst hk
      rcases h.operation with hop | hop | hop <;> simp [observedKey, hop] at hobs
      · simp [applyChange, hop, hobs]
      · simp [applyChange, hop, hobs, unchangedColumns, h.full]
      · simp [applyChange, hop, hobs]
    · have hold : rowKey (pk (eventRef event)) event.oldData ≠ some k := fun he => hk (h.old k he)
      have hnew : rowKey (pk (eventRef event)) event.newData ≠ some k := fun he => hk (h.new k he)
      rw [Function.update_of_ne (by simpa using hk)]
      rcases h.operation with hop | hop | hop <;> simp [applyChange, hop, hold, hnew]
  · rw [Function.update_of_ne (by simp [Ne.symm href])]
    simp [applyChange, href]

theorem LiveChange.deliver_eq (h : LiveChange pk event key) (rows : Contents V) :
    deliver pk rows event = applyChange pk event rows := by
  rw [h.apply_eq, deliver, h.observed]

variable {ref : TableRef} {s : Stream V} {h' : History V} {p' : Process V} {a : ProcessAct V}

/-- A live change of a row is filed under the row's key. -/
theorem LiveChange.observed_of_touches (h : LiveChange pk event key) {k : String}
    (ht : Touches pk event (ref, k)) : eventRef event = ref ∧ observedKey (pk ref) event = some k := by
  obtain ⟨href, ht⟩ := ht
  dsimp only at href ht
  subst href
  have hk : k = key := by
    rcases ht with hop | hold | hnew
    · rcases h.operation with hop' | hop' | hop' <;> rw [hop'] at hop <;> cases hop
    · exact h.old k hold
    · exact h.new k hnew
  exact ⟨rfl, hk ▸ h.observed⟩

/-! ## The source -/

/-- Every change in the log is live. -/
def Live (db : Database V) (wal : List (Item V)) : Prop := ∀ event ∈ changes wal, ∃ key, LiveChange db.primaryKey event key

variable {db : Database V} {wal : List (Item V)}

/-- Rows stay under the key their columns give. -/
theorem replay_keyed {events : List (CDCEvent V)} (hlive : ∀ event ∈ events, ∃ key, LiveChange db.primaryKey event key)
    {rows : Contents V}
    (hkeyed : ∀ ref key values, rows (ref, key) = some values → pkKeyFromData values (db.primaryKey ref) = some key) :
    ∀ ref key values, (journal db.primaryKey).replay rows events (ref, key) = some values →
      pkKeyFromData values (db.primaryKey ref) = some key := by
  induction events generalizing rows with
  | nil => exact hkeyed
  | cons event events ih =>
    refine ih (fun e he => hlive e (by simp [he])) fun ref key values hrow => ?_
    obtain ⟨key', hevent⟩ := hlive event (by simp)
    replace hrow : applyChange db.primaryKey event rows (ref, key) = some values := hrow
    rw [hevent.apply_eq] at hrow
    by_cases hk : (ref, key) = (eventRef event, key')
    · cases hk
      rw [Function.update_self] at hrow
      split at hrow
      · cases hrow
      · rename_i hop
        have hobs := hevent.observed
        rwa [observedKey, if_neg hop, hrow] at hobs
    · rw [Function.update_of_ne hk] at hrow
      exact hkeyed ref key values hrow

theorem source_keyed (hlive : Live db wal) {key : String} {values : Data V}
    (hrow : db.source wal (ref, key) = some values) : pkKeyFromData values (db.primaryKey ref) = some key :=
  replay_keyed hlive db.keyed ref key values hrow

theorem Live.take (hlive : Live db wal) (b : ℕ) : Live db (wal.take b) := fun event he =>
  hlive event (mem_changes.mpr (List.mem_of_mem_take (mem_changes.mp he)))

/-- A row selected at `snap` whose key did not come by is still there at `b`. -/
theorem source_of_unobserved (hlive : Live db wal) {l snap b : ℕ} (hl : l < snap) (hb : snap ≤ b)
    {key : String} (hkey : ¬ db.Observed (between wal (l + 1) b) ref key) :
    db.source (wal.take b) (ref, key) = db.source (wal.take snap) (ref, key) := by
  rw [Database.source, changes_take hb, Journal.replay_append]
  refine Journal.replay_frame _ fun event hevent ht => hkey ?_
  obtain ⟨q, hq, hqb, hitem⟩ := mem_between.mp hevent
  obtain ⟨key', hchange⟩ := hlive event (mem_changes.mpr (List.mem_of_getElem? hitem))
  exact ⟨event, mem_between.mpr ⟨q, by omega, hqb, hitem⟩, hchange.observed_of_touches ht⟩

/-! ## The session as a replica -/

/-- The sink follows the source for the keys the session has emitted. -/
def Follows (db : Database V) (wal : List (Item V)) (s : Stream V) : Prop :=
  ∀ rows : Contents V, ∃ r : Replica (TableRef × String) (Data V), r.source = db.source (wal.take s.pos) ∧
    r.copy = sink db.primaryKey rows s.emitted ∧ ∀ ref key, r.Knows (ref, key) ↔ db.Observed s.emitted ref key

theorem follows_start (db : Database V) (wal : List (Item V)) (hs : s.emitted = []) : Follows db wal s :=
  fun rows => ⟨{ source := db.source (wal.take s.pos), copy := rows, Knows := fun _ => False, agree := fun _ h => h.elim },
    rfl, by rw [hs]; rfl, fun ref key => by simp [hs, Database.Observed]⟩

theorem source_succ {q : ℕ} {item : Item V} (hitem : wal[q]? = some item) :
    db.source (wal.take (q + 1)) = (journal db.primaryKey).replay (db.source (wal.take q)) item.change?.toList := by
  rw [Database.source, changes_take (Nat.le_succ q), Journal.replay_append, between_succ (Nat.le_refl q) hitem, between_self]
  rfl

theorem Follows.change (hf : Follows db wal s) (hitem : wal[s.pos]? = some (.change event))
    (hlive : LiveChange db.primaryKey event key) {waiting : List (Option WatermarkPayload)} :
    Follows db wal { pos := s.pos + 1, emitted := s.emitted ++ [event], waiting } := by
  intro rows
  obtain ⟨r, hsource, hcopy, hknows⟩ := hf rows
  refine ⟨r.write (eventRef event, key) (if event.operation = .delete then none else event.newData), ?_, ?_, fun ref k => ?_⟩
  · rw [source_succ hitem, ← hsource]
    exact (hlive.apply_eq r.source).symm
  · rw [sink_append, ← hcopy]
    exact ((hlive.deliver_eq r.copy).trans (hlive.apply_eq r.copy)).symm
  · rw [db.observed_append, ← hknows ref k]
    refine or_congr_right ⟨fun heq => ?_, fun hobs => ?_⟩
    · cases heq
      exact ⟨event, by simp, rfl, hlive.observed⟩
    · obtain ⟨event', hevent, href, hkey⟩ := hobs
      obtain rfl : event' = event := by simpa using hevent
      subst href
      rw [hlive.observed] at hkey
      cases hkey
      rfl

/-- READ events refresh the sink with what the source holds. -/
theorem refreshAll_copy (lsn : String) (now : ℕ) (id : String) :
    ∀ {r : Replica (TableRef × String) (Data V)} {rows : List (Row V)},
      (∀ row ∈ rows, r.source (ref, row.key) = some row.values ∧ pkKeyFromData row.values (db.primaryKey ref) = some row.key) →
      (r.refreshAll (rows.map fun row => (ref, row.key))).copy =
        sink db.primaryKey r.copy (rows.map (readEvent lsn now id ref))
  | _, [], _ => rfl
  | r, row :: rows, h => by
    obtain ⟨hrow, hkey⟩ := h row (by simp)
    have hobs : observedKey (db.primaryKey ref) (readEvent lsn now id ref row) = some row.key := hkey
    have hread : (r.refresh (ref, row.key)).copy = deliver db.primaryKey r.copy (readEvent lsn now id ref row) := by
      have href : eventRef (readEvent lsn now id ref row) = ref := rfl
      rw [deliver, href, hobs]
      exact congrArg (Function.update r.copy (ref, row.key)) hrow
    have hrest : ∀ row' ∈ rows, (r.refresh (ref, row.key)).source (ref, row'.key) = some row'.values ∧
        pkKeyFromData row'.values (db.primaryKey ref) = some row'.key := fun row' hrow' => h row' (by simp [hrow'])
    have htail := refreshAll_copy lsn now id hrest
    rw [hread] at htail
    exact htail

theorem Follows.reads (hf : Follows db wal s) {content : Option WatermarkPayload}
    (hitem : wal[s.pos]? = some (.mark content)) {rows : List (Row V)} {lsn : String} {now : ℕ} {id : String}
    (hrows : ∀ row ∈ rows, db.source (wal.take s.pos) (ref, row.key) = some row.values ∧
      pkKeyFromData row.values (db.primaryKey ref) = some row.key) {waiting : List (Option WatermarkPayload)} :
    Follows db wal { pos := s.pos + 1, emitted := s.emitted ++ rows.map (readEvent lsn now id ref), waiting } := by
  intro τ
  obtain ⟨r, hsource, hcopy, hknows⟩ := hf τ
  refine ⟨r.refreshAll (rows.map fun row => (ref, row.key)), ?_, ?_, fun ref' key => ?_⟩
  · rw [r.refreshAll_source, source_succ hitem, ← hsource]
    rfl
  · rw [sink_append, ← hcopy]
    exact refreshAll_copy lsn now id (hsource ▸ hrows)
  · rw [r.refreshAll_knows, db.observed_append, ← hknows ref' key]
    refine or_congr_right ⟨fun hmem => ?_, fun hobs => ?_⟩
    · obtain ⟨row, hrow, heq⟩ := List.mem_map.mp hmem
      cases heq
      exact ⟨_, List.mem_map_of_mem hrow, rfl, (hrows row hrow).2⟩
    · obtain ⟨event, hevent, href, hkey⟩ := hobs
      obtain ⟨row, hrow, rfl⟩ := List.mem_map.mp hevent
      cases href
      have hkey' : some row.key = some key := (hrows row hrow).2.symm.trans hkey
      cases hkey'
      exact List.mem_map.mpr ⟨row, hrow, rfl⟩

theorem Follows.mono {wal' : List (Item V)} {s' : Stream V} (hf : Follows db wal s) (hp : wal <+: wal')
    (hlen : s.pos ≤ wal.length) (hpos : s'.pos = s.pos) (hemitted : s'.emitted = s.emitted) : Follows db wal' s' := by
  intro rows
  rw [hpos, hemitted, take_of_grows hp hlen]
  exact hf rows

/-! ## Steps of the session -/

section Take

variable {h : History V} {p : Process V} {s : Stream V}

/-- What a watermark makes the session emit: nothing, or the rows of a chunk
that the source still holds. -/
theorem Sound.emits (hs : Sound db h p) (hlive : Live db h.wal) (hstream : p.stream = some s)
    {content : Option WatermarkPayload} (hitem : h.wal[s.pos]? = some (.mark content)) (lsn : String) (now : ℕ) :
    ∃ (rows : List (Row V)) (ref : TableRef) (id : String),
      (p.coordinator.handleWatermark lsn now content).1 = rows.map (readEvent lsn now id ref) ∧
      ∀ row ∈ rows, db.source (h.wal.take s.pos) (ref, row.key) = some row.values ∧
        pkKeyFromData row.values (db.primaryKey ref) = some row.key := by
  by_cases hown : ∃ i ∈ p.coordinator.inflight, ∃ payload, content = some payload ∧ payload.chunk = (p.chunk i).id
  · obtain ⟨i, hi, payload, rfl, hid⟩ := hown
    obtain ⟨hslot, hmark⟩ := hs.own_mark hitem (hs.valid.inflight i hi) hid
    obtain ⟨slot, chunkId, mark⟩ := payload
    dsimp only at hid hslot hmark
    subst hid hslot
    rcases hmark with ⟨-, rfl⟩ | ⟨hhigh, rfl⟩
    · refine ⟨[], (p.chunk i).table, "", ?_, fun _ hrow => nomatch hrow⟩
      rw [Process.chunk, Coordinator.handleWatermark_low hs.valid hi]
      rfl
    · obtain ⟨l, snap, chunk, hl, hsel, hls, hsnap, -, hpending, hseen⟩ := hs.at_high hstream hi hhigh
      obtain ⟨l', hl', -, -, hrows⟩ := (hs.call i (hs.valid.inflight i hi)).selection snap chunk hsel
      refine ⟨Coordinator.unseen (p.chunk i), (p.chunk i).table, (p.chunk i).id, ?_, fun row hrow => ?_⟩
      · rw [Process.chunk, Coordinator.handleWatermark_high hs.valid hi]
      · obtain ⟨hmem, hunseen⟩ := List.mem_filter.mp hrow
        rw [hpending] at hmem
        have hkey : ¬ db.Observed (between h.wal (l + 1) s.pos) (p.chunk i).table row.key :=
          fun hobs => absurd ((hseen row.key).mpr hobs) (by simpa using hunseen)
        have hsource : db.source (h.wal.take s.pos) ((p.chunk i).table, row.key) = some row.values :=
          (source_of_unobserved hlive hls hsnap hkey).trans (hrows.mem row hmem).1
        exact ⟨hsource, source_keyed (hlive.take s.pos) hsource⟩
  · refine ⟨[], ⟨"", ""⟩, "", ?_, fun _ hrow => nomatch hrow⟩
    rw [Coordinator.handleWatermark_foreign hs.valid fun i hi mark hc => absurd ⟨i, hi, _, hc, rfl⟩ hown]
    rfl

theorem Follows.take (hf : Follows db h.wal s) (hs : Sound db h p) (hlive : Live db h.wal) (hstream : p.stream = some s)
    {item : Item V} (hitem : h.wal[s.pos]? = some item) (lsn : String) (now : ℕ) {s' : Stream V}
    (hs' : (p.take s lsn now item).stream = some s') : Follows db h.wal s' := by
  cases item with
  | change event =>
    cases hs'
    obtain ⟨key, hevent⟩ := hlive event (mem_changes.mpr (List.mem_of_getElem? hitem))
    exact hf.change hitem hevent
  | commit =>
    cases hs'
    intro rows
    rw [source_succ hitem]
    exact hf rows
  | mark content =>
    obtain ⟨rows, ref, id, hevents, hrows⟩ := hs.emits hlive hstream hitem lsn now
    cases hs'
    show Follows db h.wal { s with
      pos := s.pos + 1
      emitted := s.emitted ++ (p.coordinator.handleWatermark lsn now content).1
      waiting := s.waiting ++ [content] }
    rw [hevents]
    exact hf.reads hitem hrows

end Take

/-! ## Every run -/

/-- Transactions commit live changes, the watermarks of others do not carry the
ids of this process's chunks, and the database answers as a database does. -/
def System.Assumed (db : Database V) (s : System V) : SystemAct V → Prop
  | .commit events => ∀ event ∈ events, ∃ key, LiveChange db.primaryKey event key
  | .foreign content => ∀ payload, content = some payload → ∀ ref i,
      payload.chunk ≠ chunkID s.process.coordinator.instanceID ref i
  | .process a => s.process.Assumed db s.history a

/-- A process that has just started, and the log as it begins. -/
def System.start (cfg : Config) (instanceID : String) : System V := { process := newProcess cfg instanceID }

structure System.Consistent (db : Database V) (s : System V) : Prop where
  sound : Sound db s.history s.process
  live : Live db s.history.wal
  follows : ∀ stream, s.process.stream = some stream → Follows db s.history.wal stream

theorem System.start_consistent (db : Database V) (cfg : Config) (instanceID : String) :
    (System.start cfg instanceID).Consistent db where
  sound := sound_newProcess db cfg fun q payload hq => by simp [System.start] at hq
  live event he := by simp [System.start] at he
  follows _ hstream := nomatch hstream

/-- A process changes no row. -/
theorem changes_step {h : History V} {p : Process V} (hstep : p.step h a = some (h', p')) :
    changes h'.wal = changes h.wal := by
  rcases Process.step_wal hstep with hwal | ⟨i, mark, -, hwal⟩
  · rw [hwal]
  · simp [hwal, changes, Item.change?]

/-- What a step of the process does to its session: it starts one, leaves it
where it is, or takes an entry. -/
theorem step_session {h : History V} {p : Process V} (hstep : p.step h a = some (h', p'))
    {s' : Stream V} (hs' : p'.stream = some s') : s'.emitted = [] ∨
      (∃ s, p.stream = some s ∧ s'.pos = s.pos ∧ s'.emitted = s.emitted) ∨
      ∃ s item lsn now, p.stream = some s ∧ h'.wal = h.wal ∧ h.wal[s.pos]? = some item ∧
        (p.take s lsn now item).stream = some s' := by
  cases Process.steps_of_step hstep with
  | up =>
    cases hs'
    exact .inl rfl
  | down => cases hs'
  | take hstream hitem => exact .inr (.inr ⟨_, _, _, _, hstream, rfl, hitem, hs'⟩)
  | delivered hstream =>
    cases hs'
    exact .inr (.inl ⟨_, hstream, rfl, rfl⟩)
  | select => 
    rename_i answer _
    cases answer <;> exact .inr (.inl ⟨s', hs', rfl, rfl⟩)
  | _ => exact .inr (.inl ⟨s', hs', rfl, rfl⟩)

theorem System.Consistent.process {s : System V} (hc : s.Consistent db) (ha : s.process.Assumed db s.history a)
    (hstep : s.process.step s.history a = some (h', p')) : System.Consistent db { history := h', process := p' } := by
  refine ⟨hc.sound.step ha hstep, fun event he => hc.live event (changes_step hstep ▸ he), fun stream' hstream' => ?_⟩
  rcases step_session hstep hstream' with hnew | ⟨stream, hstream, hpos, hemitted⟩ | ⟨stream, item, lsn, now, hstream, hwal, hitem, htake⟩
  · exact follows_start db h'.wal hnew
  · exact (hc.follows stream hstream).mono (Process.step_extends hstep).wal (hc.sound.pos stream hstream) hpos hemitted
  · rw [hwal]
    exact (hc.follows stream hstream).take hc.sound hc.live hstream hitem lsn now htake

/-- What others add to the log is nothing new for the session. -/
theorem System.Consistent.append {s : System V} (hc : s.Consistent db) {items : List (Item V)} (hlive : Live db items)
    (hmarks : ∀ payload, Item.mark (some payload) ∈ items → ∀ ref i,
      payload.chunk ≠ chunkID s.process.coordinator.instanceID ref i) :
    System.Consistent db { s with history := { s.history with wal := s.history.wal ++ items } } where
  sound := hc.sound.extends (.append s.history items) fun q payload hq hitem ref i => by
    rw [List.getElem?_append_right hq] at hitem
    exact hmarks payload (List.mem_of_getElem? hitem) ref i
  live event he := by
    rw [changes_append, List.mem_append] at he
    exact he.elim (hc.live event) (hlive event)
  follows stream hstream :=
    (hc.follows stream hstream).mono (List.prefix_append _ _) (hc.sound.pos stream hstream) rfl rfl

theorem System.Consistent.step {s s' : System V} (hc : s.Consistent db) {a : SystemAct V} (ha : s.Assumed db a)
    (hstep : s.step a = some s') : s'.Consistent db := by
  cases a with
  | commit events =>
    cases hstep
    refine hc.append (fun event he => ha event ?_) fun payload hmem => ?_
    · simpa [changes, Item.change?] using he
    · simp at hmem
  | foreign content =>
    cases hstep
    refine hc.append (fun event he => ?_) fun payload hmem => ha payload ?_
    · simp [changes, Item.change?] at he
    · simpa [eq_comm] using hmem
  | process a =>
    simp only [System.step, Option.map_eq_some_iff] at hstep
    obtain ⟨⟨h', p'⟩, hstep, rfl⟩ := hstep
    exact hc.process ha hstep

/-- **Watermark consistency**: at every point of a session, wherever the session
began and whatever the chunks in flight, a sink that applies what was emitted
holds the source's row for every key that something was emitted for. -/
theorem sink_follows_source (db : Database V) (cfg : Config) (instanceID : String) {s : System V}
    (hrun : Reaches System.step (System.Assumed db) (System.start cfg instanceID) s) {stream : Stream V}
    (hstream : s.process.stream = some stream) (rows : Contents V) {ref : TableRef} {key : String}
    (hemitted : db.Observed stream.emitted ref key) :
    sink db.primaryKey rows stream.emitted (ref, key) = db.source (s.history.wal.take stream.pos) (ref, key) := by
  have hc : s.Consistent db :=
    hrun.invariant (fun _ _ _ hc ha hstep => hc.step ha hstep) (System.start_consistent db cfg instanceID)
  obtain ⟨r, hsource, hcopy, hknows⟩ := hc.follows stream hstream rows
  rw [← hsource, ← hcopy]
  exact r.agree (ref, key) ((hknows ref key).mpr hemitted)

/-! ## A row updated while its chunk is selected -/

theorem visited_live : LiveChange twoUsers.primaryKey visited "1" where
  operation := .inr (.inl rfl)
  observed := by decide
  old key' hkey := nomatch hkey
  new key' hkey := Option.some.inj (hkey.symm.trans (by decide : _ = some "1"))
  full := rfl

def oneLane : System ℕ := .start { slotName := "gtc", chunkSize := 10, lanes := 1 } "7f3a"

/-- A chunk of `users` gets its low watermark, and row 1 is updated. -/
def untilSelect : List (SystemAct ℕ) :=
  [.process (.up 0), .process (.register 0 users ["id"] []), .process (.emitLow 1 true true), .commit [visited]]

/-- The select saw both rows, before the update. -/
def bothSelected : SystemAct ℕ :=
  .process (.select 1 (some (1, { rows := [firstUser, secondUser], lastCursor := ["2"] })))

/-- The chunk gets its high watermark, and the session takes the log to its end. -/
def afterSelect : List (SystemAct ℕ) :=
  [SystemAct.process (.publish 1), .process (.emitHigh 1 true true)] ++ List.replicate 4 (SystemAct.process (.take "0/30" 0))

theorem untilSelect_assumed : ∀ a ∈ untilSelect, ∀ s, System.Assumed twoUsers s a := by
  simp only [untilSelect, List.mem_cons, List.not_mem_nil, or_false]
  rintro a (rfl | rfl | rfl | rfl) s
  · trivial
  · exact rfl
  · trivial
  · intro event hevent
    obtain rfl : event = visited := List.mem_singleton.mp hevent
    exact ⟨"1", visited_live⟩

theorem afterSelect_assumed : ∀ a ∈ afterSelect, ∀ s, System.Assumed twoUsers s a := by
  intro a ha s
  simp only [afterSelect, List.mem_append, List.mem_cons, List.not_mem_nil, or_false, List.mem_replicate] at ha
  rcases ha with (rfl | rfl) | ⟨-, rfl⟩ <;> trivial

theorem bothSelected_assumed {s : System ℕ} (hs : runSteps System.step oneLane untilSelect = some s) :
    s.Assumed twoUsers bothSelected := by
  have hwal : s.history.wal = [.mark (some ⟨"gtc", "7f3a-public.users-1", "low"⟩), .change visited, .commit] := by
    cases hs
    rfl
  have hrows : twoUsers.FirstRows twoUsers.rows users [] 10 { rows := [firstUser, secondUser], lastCursor := ["2"] } :=
    usersRows_select (fun _ => rfl) (fun _ _ => .rfl) (by decide) (by decide) (by decide)
  refine ⟨0, ?_, by decide, ⟨by rw [hwal]; decide, by simp [hwal]⟩, ?_⟩
  · cases hs
    rfl
  · rw [hwal]
    cases hs
    exact hrows

def visitedSession : Stream ℕ where
  pos := 4
  emitted := [visited, readEvent "0/30" 0 "7f3a-public.users-1" users secondUser]
  waiting := ["low", "high"].map fun mark => some ⟨"gtc", "7f3a-public.users-1", mark⟩

theorem visited_run : ∃ s, Reaches System.step (System.Assumed twoUsers) oneLane s ∧
    s.process.stream = some visitedSession ∧ changes (s.history.wal.take 4) = [visited] := by
  obtain ⟨s₁, h₁⟩ : ∃ s, runSteps System.step oneLane untilSelect = some s := ⟨_, rfl⟩
  obtain ⟨s₂, h₂⟩ : ∃ s, s₁.step bothSelected = some s := by
    cases h₁
    exact ⟨_, rfl⟩
  have hselected : Reaches System.step (System.Assumed twoUsers) oneLane s₂ :=
    (reaches_of_runSteps_ok untilSelect_assumed h₁).tail (bothSelected_assumed h₁) h₂
  obtain ⟨s, hs⟩ : ∃ s, runSteps System.step s₂ afterSelect = some s := by
    cases h₁
    cases h₂
    exact ⟨_, rfl⟩
  refine ⟨s, hselected.trans (reaches_of_runSteps_ok afterSelect_assumed hs), ?_⟩
  cases h₁
  cases h₂
  cases hs
  exact ⟨rfl, rfl⟩

/-- The session emits the update and row 2, and the sink has both rows as the
source has them. -/
theorem sink_follows_source_visited :
    sink twoUsers.primaryKey (fun _ => none) visitedSession.emitted (users, "1") = some [("id", some 1), ("visits", some 9)] ∧
    sink twoUsers.primaryKey (fun _ => none) visitedSession.emitted (users, "2") = some [("id", some 2)] := by
  obtain ⟨s, hrun, hstream, hchanges⟩ := visited_run
  have hsource : twoUsers.source (s.history.wal.take visitedSession.pos) = applyChange twoUsers.primaryKey visited twoUsers.rows :=
    congrArg ((journal twoUsers.primaryKey).replay twoUsers.rows) hchanges
  constructor
  · rw [sink_follows_source twoUsers _ _ hrun hstream _ ⟨visited, by decide, by decide, by decide⟩, hsource]
    rfl
  · rw [sink_follows_source twoUsers _ _ hrun hstream _
      ⟨readEvent "0/30" 0 "7f3a-public.users-1" users secondUser, by decide, by decide, by decide⟩, hsource]
    rfl

end Gtc.Backfill
