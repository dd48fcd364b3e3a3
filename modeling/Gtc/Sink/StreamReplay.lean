/-
Redelivery to Redis streams: the table streams, and the topics of the outbox.

An entry that is delivered again is appended again, so a stream holds an event
at least once. What a consumer that keeps the latest entry of each row sees in
the end is the newest change of each row, wherever MAXLEN has trimmed.
-/
import Gtc.Sink.Outbox
import Gtc.Sink.Redelivery
import Gtc.Sink.Redis

namespace Gtc

open Lib

variable {V κ : Type}

/-! ## Streams -/

/-- The entries of each stream, the oldest first. -/
abbrev Streams (V : Type) := String → List (CDCEvent V)

/-- XADD. -/
def XAdd.append (streams : Streams V) (x : XAdd V) : Streams V :=
  Function.update streams x.stream (streams x.stream ++ [x.event])

/-- XADD with MAXLEN ~, which drops some of the oldest entries as long as there
are enough left. A length that is not positive is not sent. -/
inductive XAdd.Adds (x : XAdd V) (streams : Streams V) : Streams V → Prop
  | kept : XAdd.Adds x streams (x.append streams)
  | trimmed {k} : 0 < x.maxLen → x.maxLen ≤ ((x.append streams x.stream).drop k).length →
      XAdd.Adds x streams (Function.update streams x.stream ((x.append streams x.stream).drop k))

inductive AddsAll : List (XAdd V) → Streams V → Streams V → Prop
  | nil {streams} : AddsAll [] streams streams
  | cons {x xs streams mid streams'} : x.Adds streams mid → AddsAll xs mid streams' → AddsAll (x :: xs) streams streams'

/-- The latest entry of a row. -/
def newest [DecidableEq κ] (row : CDCEvent V → κ) (r : κ) (entries : List (CDCEvent V)) : Option (CDCEvent V) :=
  (entries.filter (row · = r)).getLast?

section Newest

variable [DecidableEq κ] {row : CDCEvent V → κ} {r : κ}

theorem newest_concat (entries : List (CDCEvent V)) (e : CDCEvent V) :
    newest row r (entries ++ [e]) = if r = row e then some e else newest row r entries := by
  unfold newest
  rw [List.filter_append]
  by_cases h : r = row e
  · simp [h]
  · simp [h, Ne.symm h]

theorem newest_of_suffix {entries entries' : List (CDCEvent V)} (h : entries <:+ entries') {e : CDCEvent V}
    (he : newest row r entries = some e) : newest row r entries' = some e := by
  obtain ⟨old, rfl⟩ := h
  unfold newest at he ⊢
  rw [List.filter_append, List.getLast?_append, he]
  rfl

/-- The latest entries after XADDs. -/
theorem newest_foldl_append (xs : List (XAdd V)) (streams : Streams V) (key : String) :
    newest row r (xs.foldl XAdd.append streams key) =
      xs.foldl (fun latest x => Function.update latest (x.stream, row x.event) (some x.event))
        (fun p : String × κ => newest row p.2 (streams p.1)) (key, r) := by
  induction xs using List.reverseRecOn with
  | nil => rfl
  | append_singleton xs x ih =>
    simp only [List.foldl_append, List.foldl_cons, List.foldl_nil, XAdd.append, Function.update_apply, Prod.mk.injEq, ← ih]
    by_cases hkey : key = x.stream
    · simp [hkey, newest_concat]
    · simp [hkey]

end Newest

/-- A stream is what was appended to it, or at least as long as its limit and
the end of that. -/
theorem AddsAll.suffix {xs : List (XAdd V)} {streams streams' : Streams V} (h : AddsAll xs streams streams') {limit : Int}
    (hlimit : ∀ x ∈ xs, x.maxLen = limit) (full : Streams V)
    (hfull : ∀ key, streams key <:+ full key ∧ (streams key = full key ∨ 0 < limit ∧ limit ≤ (streams key).length)) :
    ∀ key, streams' key <:+ xs.foldl XAdd.append full key ∧
      (streams' key = xs.foldl XAdd.append full key ∨ 0 < limit ∧ limit ≤ (streams' key).length) := by
  induction h generalizing full with
  | nil => exact hfull
  | @cons x xs streams mid streams' hx _ ih =>
    refine ih (fun y hy => hlimit y (List.mem_cons_of_mem _ hy)) _ fun key => ?_
    have hmax := hlimit x (List.mem_cons_self ..)
    have happend : x.append streams key <:+ x.append full key ∧
        (x.append streams key = x.append full key ∨ 0 < limit ∧ limit ≤ (x.append streams key).length) := by
      simp only [XAdd.append, Function.update_apply]
      split
      · next h =>
        subst h
        obtain ⟨⟨old, hold⟩, heq⟩ := hfull x.stream
        refine ⟨⟨old, by rw [← List.append_assoc, hold]⟩, heq.imp (fun h => by rw [h]) fun h => ⟨h.1, ?_⟩⟩
        rw [List.length_append]
        omega
      · exact hfull key
    cases hx with
    | kept => exact happend
    | @trimmed k hpos hle =>
      by_cases hkey : key = x.stream
      · subst hkey
        rw [Function.update_self]
        exact ⟨(List.drop_suffix _ _).trans happend.1, .inr ⟨hmax ▸ hpos, hmax ▸ hle⟩⟩
      · rw [Function.update_of_ne hkey]
        simpa only [XAdd.append, Function.update_of_ne hkey] using happend

/-! ## The stream sink -/

/-- What one iteration of `StreamSink.Process` queues. -/
def StreamSink.command (s : StreamSink V) (event : CDCEvent V) : Except Err (Option (XAdd V)) :=
  if !s.shouldProcess event then .ok none
  else
    match s.generateKey event with
    | .error err => .error (.permanent err)
    | .ok stream =>
      match s.marshal event with
      | some err => .error (.permanent (.wrap ("marshal payload for event " ++ event.id ++ ": " ++ err.error) err))
      | none => .ok (some { stream, maxLen := s.maxStreamLen, event })

theorem StreamSink.commands_eq_pipelined (s : StreamSink V) (events : List (CDCEvent V)) :
    s.commands events = pipelined s.command events := by
  induction events with
  | nil => rfl
  | cons event events ih =>
    simp only [StreamSink.commands, StreamSink.command, pipelined, ih]
    split
    · cases pipelined s.command events <;> rfl
    · cases s.generateKey event with
      | error err => rfl
      | ok stream => cases s.marshal event <;> rfl

theorem StreamSink.maxLen_of_command {s : StreamSink V} {event : CDCEvent V} {x : XAdd V}
    (h : s.command event = .ok (some x)) : x.maxLen = s.maxStreamLen := by
  unfold StreamSink.command at h
  split at h
  · cases h
  · split at h
    · cases h
    · split at h <;> cases h
      rfl

theorem Executed.maxLen {s : StreamSink V} {t : Trace V} {done : List (XAdd V)} (h : Executed s.command [] t done) :
    ∀ x ∈ done, x.maxLen = s.maxStreamLen := by
  obtain ⟨log, -, rfl, -⟩ := @Executed.log _ _ _ _ [] _ _ h rfl (by simp)
  intro x hx
  obtain ⟨event, -, hevent⟩ := List.mem_filterMap.mp hx
  cases hcommand : s.command event with
  | error err => rw [hcommand] at hevent; cases hevent
  | ok c =>
    rw [hcommand] at hevent
    obtain rfl : c = some x := hevent
    exact StreamSink.maxLen_of_command hcommand

/-- **The latest entry of a row is its newest change.** Whatever happened over
the life of a stream of events, once every event is acknowledged and as long as
nothing was parked: for any way to tell rows apart, the latest entry that a
Redis stream still holds of a row is the one it would hold had the whole stream
been processed once and nothing been trimmed. A stream has lost an entry only if
there is a limit and the stream is at least that long. -/
theorem newest_entries_converge [DecidableEq κ] (cfg : SinksConfig V) (hm : 0 ≤ cfg.maxRetries) (svc : CDCServiceConfig)
    (specs : List (SinkSpec V)) (i : ℕ) (spec : SinkSpec V) (hi : specs[i]? = some spec) (s : StreamSink V)
    (events : List (CDCEvent V)) (t : List (ℕ × (sinkSig V).Event))
    (hrun : StreamRun svc (specs.map (·.build cfg)) events events.length t) (hpark : ∀ entry, (i, ⟨.park entry, none⟩) ∉ t)
    (done : List (XAdd V)) (hdone : Executed s.command [] (ofIndex i t) done) (streams streams' : Streams V)
    (hadds : AddsAll done streams streams') (row : CDCEvent V → κ) :
    ∃ commands, s.commands (events.filterMap (spec.image svc)) = .ok commands ∧ ∀ key,
      (∀ r e, newest row r (streams' key) = some e → newest row r (commands.foldl XAdd.append streams key) = some e) ∧
      ((∀ r, newest row r (streams' key) = newest row r (commands.foldl XAdd.append streams key)) ∨
        0 < s.maxStreamLen ∧ s.maxStreamLen ≤ (streams' key).length) := by
  have habs := absorbing_update (fun x : XAdd V => (x.stream, row x.event)) fun x => some x.event
  obtain ⟨commands, hcommands, heq⟩ := hrun.foldl_executed hm hi hpark hdone habs
  have hnewest (key : String) (r : κ) :
      newest row r (done.foldl XAdd.append streams key) = newest row r (commands.foldl XAdd.append streams key) := by
    rw [newest_foldl_append, newest_foldl_append, heq]
  have hsuffix := hadds.suffix hdone.maxLen streams fun key => ⟨List.suffix_refl _, .inl rfl⟩
  refine ⟨commands, (s.commands_eq_pipelined _).trans hcommands, fun key => ⟨fun r e he => ?_, ?_⟩⟩
  · rw [← hnewest]
    exact newest_of_suffix (hsuffix key).1 he
  · exact (hsuffix key).2.imp (fun h r => by rw [h, hnewest]) id

/-- Every table's changes on one stream of two entries. -/
def cdcStream : StreamSink Unit where
  resolver :=
    { parse := fun _ => .ok fun ctx => .ok ctx.prefix_
      config := { syncAll := true, defaultKeyPattern := "", tables := [] }
      prefixTemplate := fun _ => .ok "cdc"
      defaultPattern := "" }
  maxStreamLen := 2
  marshal _ := none

def ordersEvent : CDCEvent Unit := { (bareEvent "0/2" : CDCEvent Unit) with table := "orders" }

/-- Of the pipeline that fails only the second entry is added; at the end the
stream is trimmed to the newest entry of each table. -/
theorem newest_entries_converge_trimmed : ∃ (done : List (XAdd Unit)) (streams : Streams Unit) (commands : List (XAdd Unit)),
    done.map (·.event.id) = ["0/2", "0/1", "0/2", "0/2", "0/3"] ∧ AddsAll done (fun _ => []) streams ∧
    streams "cdc" = [ordersEvent, bareEvent "0/3"] ∧
    cdcStream.commands [bareEvent "0/1", ordersEvent, bareEvent "0/3"] = .ok commands ∧
    ∀ r e, newest CDCEvent.table r (streams "cdc") = some e →
      newest CDCEvent.table r (commands.foldl XAdd.append (fun _ => []) "cdc") = some e := by
  let x (e : CDCEvent Unit) : XAdd Unit := ⟨"cdc", 2, e⟩
  have hfirst : pipelined cdcStream.command [bareEvent "0/1", ordersEvent] = .ok [x (bareEvent "0/1"), x ordersEvent] := rfl
  have hsecond : pipelined cdcStream.command [ordersEvent, bareEvent "0/3"] = .ok [x ordersEvent, x (bareEvent "0/3")] := rfl
  have hdone : Executed cdcStream.command [] (ofIndex 0 (deliveredAgain "redis" (.new "EOF") (bareEvent "0/1") ordersEvent (bareEvent "0/3")))
      ([x ordersEvent] ++ [x (bareEvent "0/1"), x ordersEvent] ++ [x ordersEvent, x (bareEvent "0/3")]) :=
    .cons ⟨_, .other (by simp), rfl⟩ (.cons ⟨_, .failed hfirst (.cons _ (.refl _)), rfl⟩ (.cons ⟨_, .other (by simp), rfl⟩
      (.cons ⟨_, .other (by simp), rfl⟩ (.cons ⟨_, .other (by simp), rfl⟩ (.cons ⟨_, .executed hfirst, rfl⟩
        (.cons ⟨_, .other (by simp), rfl⟩ (.cons ⟨_, .other (by simp), rfl⟩ (.cons ⟨_, .executed hsecond, rfl⟩
          (.cons ⟨_, .other (by simp), rfl⟩ .nil)))))))))
  obtain ⟨streams, hadds, hstream⟩ : ∃ streams, AddsAll ([x ordersEvent] ++ [x (bareEvent "0/1"), x ordersEvent] ++
      [x ordersEvent, x (bareEvent "0/3")]) (fun _ => []) streams ∧ streams "cdc" = [ordersEvent, bareEvent "0/3"] :=
    ⟨_, .cons .kept (.cons .kept (.cons .kept (.cons .kept (.cons (.trimmed (k := 3) (by decide) (by decide)) .nil)))), rfl⟩
  obtain ⟨commands, hcommands, hnewest⟩ := newest_entries_converge (plainSinks "redis") (by decide) ⟨true, []⟩
    [plainSpec "redis"] 0 (plainSpec "redis") rfl cdcStream [bareEvent "0/1", ordersEvent, bareEvent "0/3"] _
    (streamRun_deliveredAgain "redis" (.new "EOF") (.ask (.ask (.ask (.ask .ret))))) (deliveredAgain_not_parked _ _ _ _ _) _ hdone (fun _ => []) streams
    hadds CDCEvent.table
  rw [image_plainSpec] at hcommands
  exact ⟨_, streams, commands, rfl, hadds, hstream, hcommands, (hnewest "cdc").1⟩

/-! ## The outbox -/

/-- What one iteration of the outbox's `Process` queues, and the id to delete
the row by when it is published. -/
structure OutboxCommand where
  message : OutboxMessage
  row : Option String
deriving DecidableEq, Repr

/-- What became of the outbox: the messages that were added to their streams, where
MAXLEN may have trimmed them since, and the ids of the rows that were deleted. -/
structure OutboxState where
  published : List OutboxMessage := []
  deleted : List String := []

namespace OutboxSink

/-- `event.NewData[cfg.Columns.ID]`, printed. -/
def rowID (s : OutboxSink V) (event : CDCEvent V) : Option String :=
  (event.newData.bind (·.get s.columns.id)).join.map s.print

def command (s : OutboxSink V) (event : CDCEvent V) : Except Err (Option OutboxCommand) :=
  if !s.isMessage event then .ok none
  else
    match s.buildMessage event with
    | .error err => .error (.permanent err)
    | .ok message => .ok (some { message, row := s.rowID event })

theorem messages_eq_pipelined (s : OutboxSink V) (events : List (CDCEvent V)) :
    s.messages events = (pipelined s.command events).map (·.map (·.message)) := by
  induction events with
  | nil => rfl
  | cons event events ih =>
    simp only [messages, command, pipelined, ih]
    split
    · cases pipelined s.command events <;> rfl
    · cases s.buildMessage event with
      | error err => rfl
      | ok message => cases pipelined s.command events <;> rfl

/-- What an operation makes of the outbox. The rows of a batch are deleted when
their messages have been added; a delete that fails is logged and forgotten. -/
inductive Publishes (s : OutboxSink V) (deleteAfterPublish : Bool) : OutboxState → (sinkSig V).Event → OutboxState → Prop
  | published {name batch commands st} : pipelined s.command batch = .ok commands →
      Publishes s deleteAfterPublish st ⟨.process name batch, none⟩
        { st with published := st.published ++ commands.map (·.message) }
  | deleted {name batch commands st} : pipelined s.command batch = .ok commands → deleteAfterPublish = true →
      Publishes s deleteAfterPublish st ⟨.process name batch, none⟩
        { published := st.published ++ commands.map (·.message), deleted := st.deleted ++ commands.filterMap (·.row) }
  | failed {name batch err commands st} {done : List OutboxCommand} : pipelined s.command batch = .ok commands →
      done.Sublist commands →
      Publishes s deleteAfterPublish st ⟨.process name batch, some err⟩
        { st with published := st.published ++ done.map (·.message) }
  | refused {name batch err st} : pipelined s.command batch = .error err →
      Publishes s deleteAfterPublish st ⟨.process name batch, some err⟩ st
  | other {x st} : (∀ name batch r, x ≠ ⟨.process name batch, r⟩) → Publishes s deleteAfterPublish st x st

variable {s : OutboxSink V} {deleteAfterPublish : Bool}

/-- The message of the event was published. -/
def Published (s : OutboxSink V) (st : OutboxState) (event : CDCEvent V) : Prop :=
  ∃ message ∈ st.published, s.buildMessage event = .ok message

theorem command_of_isMessage {event : CDCEvent V} {c : Option OutboxCommand} (hmsg : s.isMessage event = true)
    (h : s.command event = .ok c) : ∃ message, s.buildMessage event = .ok message ∧ c = some ⟨message, s.rowID event⟩ := by
  unfold command at h
  rw [hmsg] at h
  cases hbuild : s.buildMessage event with
  | error err => rw [hbuild] at h; cases h
  | ok message => rw [hbuild] at h; cases h; exact ⟨message, rfl, rfl⟩

theorem isMessage_of_command {event : CDCEvent V} {c : OutboxCommand} (h : s.command event = .ok (some c)) :
    s.isMessage event = true ∧ c.row = s.rowID event := by
  unfold command at h
  split at h
  · cases h
  · next hmsg =>
    split at h <;> cases h
    exact ⟨by simpa using hmsg, rfl⟩

/-- A pipeline has the message of every event of its batch that is one, and the
ids of their rows. -/
theorem pipelined_messages {batch : List (CDCEvent V)} {commands : List OutboxCommand}
    (h : pipelined s.command batch = .ok commands) :
    (∀ event ∈ batch, s.isMessage event = true → ∃ message ∈ commands.map (·.message), s.buildMessage event = .ok message) ∧
      ∀ id ∈ commands.filterMap (·.row), ∃ event ∈ batch, s.isMessage event = true ∧ s.rowID event = some id := by
  obtain ⟨hall, rfl⟩ := pipelined_eq_ok.mp h
  constructor
  · intro event he hmsg
    obtain ⟨c, hc⟩ := hall event he
    obtain ⟨message, hbuild, rfl⟩ := command_of_isMessage hmsg hc
    refine ⟨message, List.mem_map.mpr ⟨⟨message, s.rowID event⟩, ?_, rfl⟩, hbuild⟩
    exact List.mem_filterMap.mpr ⟨event, he, by rw [hc]; rfl⟩
  · intro id hid
    obtain ⟨c, hc, hrow⟩ := List.mem_filterMap.mp hid
    obtain ⟨event, he, heq⟩ := List.mem_filterMap.mp hc
    obtain ⟨o, ho⟩ := hall event he
    rw [ho] at heq
    obtain rfl : o = some c := heq
    obtain ⟨hmsg, hid⟩ := isMessage_of_command ho
    exact ⟨event, he, hmsg, hid.symm.trans hrow⟩

/-- Along the operations, the messages of an accepted batch are published, and what
was deleted is of such a batch. -/
theorem publishes_along {t : Trace V} : ∀ {st st' : OutboxState}, Along (s.Publishes deleteAfterPublish) st t st' →
    st.published ⊆ st'.published ∧
    (∀ name batch, ⟨.process name batch, none⟩ ∈ t → ∀ event ∈ batch, s.isMessage event = true → s.Published st' event) ∧
    ∀ id ∈ st'.deleted, id ∈ st.deleted ∨ ∃ name batch, ⟨.process name batch, none⟩ ∈ t ∧
      ∃ event ∈ batch, s.isMessage event = true ∧ s.rowID event = some id := by
  induction t with
  | nil =>
    intro st st' h
    obtain rfl := along_nil.mp h
    exact ⟨List.Subset.refl _, by simp, fun id hid => .inl hid⟩
  | cons x t ih =>
    intro st st' h
    obtain ⟨mid, hx, h⟩ := along_cons.mp h
    obtain ⟨hgrows, haccepted, hdeleted⟩ := ih h
    have hmid : st.published ⊆ mid.published := by
      cases hx with
      | published | deleted | failed => exact List.subset_append_left _ _
      | refused | other => exact List.Subset.refl _
    refine ⟨List.Subset.trans hmid hgrows, fun name batch hmem event he hmsg => ?_, fun id hid => ?_⟩
    · rcases List.mem_cons.mp hmem with rfl | hmem
      · cases hx with
        | published hcommands | deleted hcommands =>
          obtain ⟨message, hmessage, hbuild⟩ := (pipelined_messages hcommands).1 event he hmsg
          exact ⟨message, hgrows (List.mem_append_right _ hmessage), hbuild⟩
        | other hno => exact absurd rfl (hno _ _ _)
      · exact haccepted name batch hmem event he hmsg
    · rcases hdeleted id hid with hid | ⟨name, batch, hmem, hrow⟩
      · cases hx with
        | published | failed | refused | other => exact .inl hid
        | @deleted name batch _ _ hcommands =>
          rcases List.mem_append.mp hid with hid | hid
          · exact .inl hid
          · exact .inr ⟨name, batch, List.mem_cons_self .., (pipelined_messages hcommands).2 id hid⟩
      · exact .inr ⟨name, batch, List.mem_cons_of_mem _ hmem, hrow⟩

end OutboxSink

/-- **The outbox loses no message.** Over any life of a stream of events, the
message of an outbox row whose INSERT is acknowledged was published, or its event
is parked; and, acknowledged or not, the message of a row that
delete-after-publish has deleted was published, if the ids of the rows tell them
apart. -/
theorem outbox_rows_published (cfg : SinksConfig V) (hm : 0 ≤ cfg.maxRetries) (svc : CDCServiceConfig)
    (specs : List (SinkSpec V)) (i : ℕ) (spec : SinkSpec V) (hi : specs[i]? = some spec) (s : OutboxSink V)
    (deleteAfterPublish : Bool) (events : List (CDCEvent V)) (pos : ℕ) (t : List (ℕ × (sinkSig V).Event))
    (hrun : StreamRun svc (specs.map (·.build cfg)) events pos t) (st : OutboxState)
    (hst : Along (s.Publishes deleteAfterPublish) {} (ofIndex i t) st)
    (hids : ∀ e ∈ events.filterMap (spec.image svc), ∀ e' ∈ events.filterMap (spec.image svc), s.isMessage e = true →
      s.isMessage e' = true → ∀ id, s.rowID e = some id → s.rowID e' = some id → e = e') :
    (∀ e ∈ (events.take pos).filterMap (spec.image svc), s.isMessage e = true →
      s.Published st e ∨ ∃ entry, (i, ⟨.park entry, none⟩) ∈ t ∧ entry.event = e) ∧
    ∀ e ∈ events.filterMap (spec.image svc), s.isMessage e = true → ∀ id ∈ st.deleted, s.rowID e = some id →
      s.Published st e := by
  obtain ⟨-, haccepted, hdeleted⟩ := OutboxSink.publishes_along hst
  constructor
  · intro e he hmsg
    rcases mem_settledEvents (hrun.settled hm hi e he) with ⟨name, batch, hmem, hbatch⟩ | ⟨entry, hmem, hevent⟩
    · exact .inl (haccepted name batch hmem e hbatch hmsg)
    · exact .inr ⟨entry, mem_ofIndex.mp hmem, hevent⟩
  · intro e he hmsg id hid hrow
    rcases hdeleted id hid with hid | ⟨name, batch, hmem, e', he', hmsg', hrow'⟩
    · cases hid
    · have hsub := hrun.batch_subset hm hi name batch none (mem_ofIndex.mp hmem)
      obtain rfl := hids e he e' (hsub he') hmsg hmsg' id hrow hrow'
      exact haccepted name batch hmem e he' hmsg

/-- An outbox in the table `users`, whose payload is the `id`. -/
def usersOutbox : OutboxSink String where
  schema := "public"
  table := "users"
  streamPrefix := "outbox"
  defaultTopic := "users"
  columns := { payload := "id" }
  print := id
  payloadString := .ok

/-- A row of it. -/
def outboxRow (lsn id : String) : CDCEvent String := { bareEvent lsn with newData := some [("id", some id)] }

/-- Of the pipeline that fails only the second message is added. The rows of the
first batch are deleted, those of the last one are not. -/
theorem outbox_rows_published_again : ∃ st : OutboxState, st.published.map (·.id) = ["8", "7", "8", "8", "9"] ∧
    st.deleted = ["7", "8"] ∧
    ∀ e ∈ [outboxRow "0/1" "7", outboxRow "0/2" "8", outboxRow "0/3" "9"], usersOutbox.Published st e := by
  let x (id : String) : OutboxCommand := ⟨⟨"outbox:users", id, id, none, none⟩, some id⟩
  have hfirst : pipelined usersOutbox.command [outboxRow "0/1" "7", outboxRow "0/2" "8"] = .ok [x "7", x "8"] := by decide +kernel
  have hsecond : pipelined usersOutbox.command [outboxRow "0/2" "8", outboxRow "0/3" "9"] = .ok [x "8", x "9"] := by decide +kernel
  have hst : Along (usersOutbox.Publishes true) {} (ofIndex 0 (deliveredAgain "outbox" (.new "EOF") (outboxRow "0/1" "7")
      (outboxRow "0/2" "8") (outboxRow "0/3" "9"))) ⟨[x "8", x "7", x "8", x "8", x "9"].map (·.message), ["7", "8"]⟩ :=
    .cons (.other (by simp)) (.cons (.failed hfirst (.cons _ (.refl _))) (.cons (.other (by simp)) (.cons (.other (by simp))
      (.cons (.other (by simp)) (.cons (.deleted hfirst rfl) (.cons (.other (by simp)) (.cons (.other (by simp))
        (.cons (.published hsecond) (.cons (.other (by simp)) .nil)))))))))
  obtain ⟨hpublished, -⟩ := outbox_rows_published (plainSinks "outbox") (by decide) ⟨true, []⟩ [plainSpec "outbox"] 0
    (plainSpec "outbox") rfl usersOutbox true [outboxRow "0/1" "7", outboxRow "0/2" "8", outboxRow "0/3" "9"] 3 _
    (streamRun_deliveredAgain "outbox" (.new "EOF") (.ask (.ask (.ask (.ask .ret))))) _ hst (by rw [image_plainSpec]; decide +kernel)
  refine ⟨⟨[x "8", x "7", x "8", x "8", x "9"].map (·.message), ["7", "8"]⟩, rfl, rfl, fun e he => ?_⟩
  rw [List.take_of_length_le (by simp), image_plainSpec] at hpublished
  refine (hpublished e he ?_).resolve_right ?_
  · simp only [List.mem_cons, List.not_mem_nil, or_false] at he
    rcases he with rfl | rfl | rfl <;> decide
  · rintro ⟨entry, hparked, -⟩
    exact deliveredAgain_not_parked _ _ _ _ _ entry hparked

end Gtc
