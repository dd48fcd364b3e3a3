/-
At-least-once delivery over the whole life of a slot: wherever the slot's
position has come to, every transaction up to it was delivered in full by some
connection.

A position is *safe* when that holds of it. Positions come from three places:
where the slot began, what a reader read of the slot, and what a connection
reported; the last is safe because the connection delivered all it was sent
from the position it was served from, which was safe.
-/
import Gtc.Wal.Reader
import Mathlib.Algebra.Group.Nat.Defs

namespace Gtc.Wal

open Lib

variable {N V H : Type}

/-! ## What the server sends -/

/-- A committed transaction: where it ends, and the messages it is sent as. -/
structure Transaction where
  ends : LSN
  messages : List BackendMessage

def Transaction.sent (t : Transaction) : List Sent := t.messages.map fun msg => ⟨msg, some t.ends⟩

/-- **What PostgreSQL guarantees of a connection** served from `lsn`, for the
transactions `wal` that commit: those that end after `lsn` are sent whole, in
the order `Served` describes. -/
structure Carries (wal : List Transaction) (lsn : LSN) (stream : List Sent) : Prop where
  served : Served lsn none stream
  whole : ∀ t ∈ wal, lsn < t.ends → t.sent.Sublist stream

theorem Served.mono {lo lo' : LSN} {cur : Option LSN} {ms : List Sent} (h : Served lo cur ms) (hle : lo' ≤ lo) :
    Served lo' cur ms := by
  induction h generalizing lo' with
  | nil => exact .nil
  | begin hlt _ ih => exact .begin (Nat.lt_of_le_of_lt hle hlt) (ih hle)
  | inside hm _ ih => exact .inside hm (ih hle)
  | commit hms => exact .commit hms
  | keepalive _ ih => exact .keepalive (ih (Nat.max_le.mpr ⟨Nat.le_trans hle (Nat.le_max_left _ _), Nat.le_max_right _ _⟩))
  | outside hm hk _ ih => exact .outside hm hk (ih hle)

/-! ## One connection -/

/-- The step handles no unit. -/
def HandlesNone (s s' : Session V) : Prop := ∀ d, .handled d ∈ s'.log → .handled d ∈ s.log

theorem HandlesNone.of_log {s s' : Session V} {new : List (Entry V)} (hlog : s'.log = s.log ++ new)
    (hnew : ∀ d, .handled d ∉ new) : HandlesNone s s' := by
  intro d hd
  rw [hlog, List.mem_append] at hd
  exact hd.resolve_right (hnew d)

theorem flush_log (s : Session V) : s.flush.log = s.log := by
  unfold Session.flush
  split <;> rfl

theorem appendEvent_log (maxBatch : ℕ) (s : Session V) (e : Event V) : (s.appendEvent maxBatch e).log = s.log := by
  unfold Session.appendEvent
  dsimp only
  split
  · exact flush_log _
  · rfl

theorem report_handlesNone {s s' : Session V} (hlog : s'.log = s.log) : HandlesNone s s'.report :=
  @HandlesNone.of_log V _ _ [.reported s'.clientLSN] (by rw [Session.report, hlog]) (by simp)

theorem sendStep_handlesNone {s s' : Session V} {d : Delivery V} {ds : List (Delivery V)} {a : StreamAct V}
    (ha : sendStep s d ds a = some s') : HandlesNone s s' := by
  unfold sendStep at ha
  split at ha
  · split at ha
    · split at ha <;> cases ha
      exact .of_log rfl (by simp)
    · cases ha; exact fun _ h => h
  · split at ha <;> cases ha
    exact report_handlesNone rfl
  · split at ha <;> cases ha
    exact fun _ h => h
  · cases ha

theorem workStep_handlesNone {cfg : Config V} {s s' : Session V} {t : Task V} {ts : List (Task V)} {a : StreamAct V}
    (ha : workStep cfg s t ts a = some s') : HandlesNone s s' := by
  unfold workStep at ha
  split at ha
  · split at ha
    · cases ha
      exact fun d hd => (by rwa [appendEvent_log] at hd)
    · split at ha <;> cases ha
      exact fun d hd => (by rwa [flush_log] at hd)
    · cases ha; exact fun _ h => h
    · cases ha
  · split at ha
    · dsimp only at ha
      split at ha <;> cases ha
      exact fun _ h => h
    · cases ha
  · split at ha <;> cases ha
    exact report_handlesNone rfl
  · split at ha <;> cases ha
    exact report_handlesNone rfl
  · cases ha

theorem receiveStep_handlesNone (cfg : Config V) (s : Session V) (m : BackendMessage) :
    HandlesNone s (receiveStep cfg s m) := by
  unfold receiveStep
  dsimp only
  split
  · exact fun _ h => h
  · split
    · exact fun _ h => h
    · exact .of_log rfl (by simp)

theorem loopStep_handlesNone {cfg : Config V} {stream : List BackendMessage} {s s' : Session V} {pc : LoopPoint}
    {a : StreamAct V} (ha : loopStep cfg stream s pc a = some s') : HandlesNone s s' := by
  unfold loopStep at ha
  split at ha
  · split at ha <;> cases ha
    exact fun _ h => h
  · cases ha; exact fun _ h => h
  · cases ha
    exact fun d hd => (by rwa [flush_log] at hd)
  · cases ha; exact fun _ h => h
  · split at ha <;> cases ha <;> exact fun _ h => h
  · cases ha; exact report_handlesNone rfl
  · cases ha; exact fun _ h => h
  · cases ha; exact report_handlesNone rfl
  · obtain ⟨m, -, rfl⟩ := Option.map_eq_some_iff.mp ha
    exact receiveStep_handlesNone cfg s m
  · cases ha; exact fun _ h => h
  · cases ha; exact fun _ h => h
  · cases ha

theorem teardownStep_handlesNone {s s' : Session V} (ha : teardownStep s = some s') : HandlesNone s s' := by
  unfold teardownStep at ha
  split at ha
  · split at ha <;> cases ha
    · exact .of_log rfl (by simp)
    · exact fun _ h => h
  · split at ha <;> cases ha <;> exact fun _ h => h
  · cases ha

/-- The loop handles nothing: the delivery goroutine does. -/
theorem streamStep_handlesNone {cfg : Config V} {stream : List BackendMessage} {s s' : Session V} {a : StreamAct V}
    (ha : streamStep cfg stream s a = some s') : HandlesNone s s' := by
  unfold streamStep at ha
  split at ha
  · split at ha
    · next c _ => cases ha; cases c <;> exact fun _ h => h
    · exact sendStep_handlesNone ha
    · exact workStep_handlesNone ha
    · exact loopStep_handlesNone ha
  · exact teardownStep_handlesNone ha

/-- The delivery goroutine handles a unit without events by itself, and any
other when the handler returns nil. -/
theorem deliveryStep_handled {s s' : Session V} {ok : Bool} (ha : deliveryStep s ok = some s') {d : Delivery V}
    (hd : .handled d ∈ s'.log) :
    .handled d ∈ s.log ∨ d.events = [] ∨ s.worker.handling? = some d ∧ ok = true := by
  unfold deliveryStep at ha
  split at ha
  · split at ha
    · split at ha <;> cases ha
      · next hnil =>
        simp only [List.mem_append, List.mem_singleton, Entry.handled.injEq] at hd
        rcases hd with hd | rfl
        · exact .inl hd
        · exact .inr (.inl hnil)
      · exact .inl (by simpa using hd)
    · split at ha <;> cases ha
      exact .inl hd
  · next d' hw =>
    split at ha <;> cases ha
    · next hok =>
      simp only [List.mem_append, List.mem_singleton, Entry.handled.injEq] at hd
      rcases hd with hd | rfl
      · exact .inl hd
      · exact .inr (.inr ⟨by rw [hw]; rfl, hok⟩)
    · exact .inl hd
  · next d' _ =>
    cases ha
    cases hw : d'.watermark <;> simp [hw] at hd <;> exact .inl hd
  all_goals cases ha
  all_goals exact .inl hd

/-- The connection has delivered the transaction: it was sent whole, and each
event of each of its messages was in a batch the handler returned nil for. -/
structure Connection.Delivered (handles : List (CDCEvent V) → H → Bool → Prop) (c : Connection V H) (t : Transaction) :
    Prop where
  whole : t.sent.Sublist c.stream
  events : ∀ k m, c.stream[k]? = some m → m.txn = some t.ends →
    ∃ events, .decoded k events ∈ c.session.log ∧ ∀ ev ∈ events,
      ∃ call ∈ c.calls, call.ok = true ∧ ev.event ∈ call.events ∧ handles call.events call.evidence call.ok

/-- What holds of a connection from its first step to its last. -/
structure Connection.Ok (wal : List Transaction) (handles : List (CDCEvent V) → H → Bool → Prop) (c : Connection V H) :
    Prop where
  carries : Carries wal c.served c.stream
  confirmed : Confirmed c.stream c.session
  handled : ∀ d, .handled d ∈ c.session.log → d.events = [] ∨
    ∃ call ∈ c.calls, call.ok = true ∧ call.events = d.events.map (·.event)
  calls : ∀ call ∈ c.calls, handles call.events call.evidence call.ok

/-- A later state of the same connection. -/
structure Connection.Extends (c c' : Connection V H) : Prop where
  served : c'.served = c.served
  stream : c'.stream = c.stream
  log : c.session.log ⊆ c'.session.log
  calls : c.calls ⊆ c'.calls

section Connection

variable {wal : List Transaction} {handles : List (CDCEvent V) → H → Bool → Prop} {c c' : Connection V H}

theorem Connection.Delivered.mono {t : Transaction} (h : c.Delivered handles t) (hext : c.Extends c') :
    c'.Delivered handles t where
  whole := by rw [hext.stream]; exact h.whole
  events k m hm ht := by
    rw [hext.stream] at hm
    obtain ⟨events, hdec, hall⟩ := h.events k m hm ht
    refine ⟨events, hext.log hdec, fun ev hev => ?_⟩
    obtain ⟨call, hcall, rest⟩ := hall ev hev
    exact ⟨call, hext.calls hcall, rest⟩

theorem Connection.Extends.refl (c : Connection V H) : c.Extends c := ⟨rfl, rfl, fun _ h => h, fun _ h => h⟩

theorem Connection.extends_of_step {cfg : Config V} {a : ConnAct V H} (ha : c.step cfg a = some c') : c.Extends c' := by
  unfold Connection.step at ha
  split at ha
  · next a =>
    obtain ⟨s, hs, rfl⟩ := Option.map_eq_some_iff.mp ha
    exact ⟨rfl, rfl, (step_log_grows (a := .stream a) hs).subset, fun _ h => h⟩
  · split at ha
    · cases ha
    · obtain ⟨s, hs, rfl⟩ := Option.map_eq_some_iff.mp ha
      have hs : Wal.step cfg [] c.session (.delivery true) = some s := hs
      exact ⟨rfl, rfl, (step_log_grows hs).subset, fun _ h => h⟩
  · next evidence ok =>
    split at ha
    · obtain ⟨s, hs, rfl⟩ := Option.map_eq_some_iff.mp ha
      have hs : Wal.step cfg [] c.session (.delivery ok) = some s := hs
      exact ⟨rfl, rfl, (step_log_grows hs).subset, List.subset_append_left _ _⟩
    · cases ha

/-- The handler's return is what `handles` says of a call. -/
def ConnAct.Allowed (handles : List (CDCEvent V) → H → Bool → Prop) (c : Connection V H) : ConnAct V H → Prop
  | .handler evidence ok => ∀ d, c.session.worker.handling? = some d → handles (d.events.map (·.event)) evidence ok
  | _ => True

theorem Connection.Ok.positive (h : c.Ok wal handles) : ∀ m ∈ c.stream, ∀ e ∈ m.txn, 0 < e := fun m hm e he =>
  Nat.lt_of_le_of_lt (Nat.zero_le _) (h.carries.served.lt (by simp) m hm e he)

theorem Connection.Ok.step {cfg : Config V} {a : ConnAct V H} (h : c.Ok wal handles) (hok : a.Allowed handles c)
    (ha : c.step cfg a = some c') : c'.Ok wal handles := by
  unfold Connection.step at ha
  split at ha
  · next a =>
    obtain ⟨s, hs, rfl⟩ := Option.map_eq_some_iff.mp ha
    exact { h with
      confirmed := h.confirmed.step (a := .stream a) h.positive hs
      handled := fun d hd => h.handled d (streamStep_handlesNone hs d hd) }
  · split at ha
    · cases ha
    · next hw =>
      obtain ⟨s, hs, rfl⟩ := Option.map_eq_some_iff.mp ha
      have hstep : Wal.step cfg (c.stream.map (·.msg)) c.session (.delivery true) = some s := hs
      refine { h with confirmed := h.confirmed.step h.positive hstep, handled := fun d hd => ?_ }
      rcases deliveryStep_handled hs hd with hd | hnil | ⟨hd, -⟩
      · exact h.handled d hd
      · exact .inl hnil
      · rw [hw] at hd; cases hd
  · next evidence ok =>
    split at ha
    · next d' hw =>
      obtain ⟨s, hs, rfl⟩ := Option.map_eq_some_iff.mp ha
      have hstep : Wal.step cfg (c.stream.map (·.msg)) c.session (.delivery ok) = some s := hs
      refine { carries := h.carries, confirmed := h.confirmed.step h.positive hstep,
               handled := fun d hd => ?_, calls := fun call hcall => ?_ }
      · rcases deliveryStep_handled hs hd with hd | hnil | ⟨hd', rfl⟩
        · rcases h.handled d hd with hnil | ⟨call, hcall, rest⟩
          · exact .inl hnil
          · exact .inr ⟨call, List.mem_append_left _ hcall, rest⟩
        · exact .inl hnil
        · obtain rfl : d' = d := Option.some.inj (hw.symm.trans hd')
          exact .inr ⟨_, List.mem_append_right _ (List.mem_singleton.mpr rfl), rfl, rfl⟩
      · rcases List.mem_append.mp hcall with hcall | hcall
        · exact h.calls call hcall
        · rw [List.mem_singleton.mp hcall]
          exact hok d' hw
    · cases ha

theorem Connection.ok_start {startLSN served : LSN} {stream : List Sent} {decoder : Decoder}
    (hcarries : Carries wal served stream) (hle : startLSN ≤ served) :
    Connection.Ok wal handles ({ served, stream, session := start startLSN decoder } : Connection V H) where
  carries := hcarries
  confirmed := confirmed_start (hcarries.served.mono hle) decoder
  handled d hd := by cases hd
  calls call hcall := by cases hcall

/-- **A reported position**: every transaction up to it that the connection was
sent has been delivered. -/
theorem Connection.Ok.delivered (h : c.Ok wal handles) {lsn : LSN} (hlsn : lsn ∈ reports c.session.log) {t : Transaction}
    (ht : t ∈ wal) (hlt : c.served < t.ends) (hle : t.ends ≤ lsn) : c.Delivered handles t := by
  obtain ⟨x, hx, hval⟩ := List.mem_filterMap.mp hlsn
  have hrep : x = .reported lsn := by
    cases x with
    | reported l => cases hval; rfl
    | decoded | enqueued | dropped | handed | handled | delivered => cases hval
  obtain ⟨pre, post, hlog⟩ := List.append_of_mem hx
  rw [hrep] at hlog
  have hcovered := h.confirmed.safe pre (.reported lsn) post hlog lsn rfl
  have hpre : pre ⊆ c.session.log := by rw [hlog]; exact List.subset_append_left _ _
  refine ⟨h.carries.whole t ht hlt, fun k m hm htxn => ?_⟩
  obtain ⟨events, hdec, hall⟩ := hcovered k m t.ends hm htxn hle
  refine ⟨events, hpre hdec, fun ev hev => ?_⟩
  obtain ⟨d, hd, hmem⟩ := mem_handledEvents (hall ev hev)
  rcases h.handled d (hpre hd) with hnil | ⟨call, hcall, hok, heq⟩
  · rw [hnil] at hmem; cases hmem
  · exact ⟨call, hcall, hok, by rw [heq]; exact List.mem_map_of_mem hmem, h.calls call hcall⟩

end Connection

/-! ## What a step of the cluster does -/

/-- The position a reader's setup holds. -/
def Reader.known? (r : Reader V H) : Option LSN :=
  match r.point with
  | .slotKnown lsn => some lsn
  | _ => none

namespace Cluster

def conn? (w : Cluster N V H) (n : N) : Option (Connection V H) := (w.readers n).bind (·.connection?)

/-- The connections of the whole history. -/
def Has (w : Cluster N V H) (c : Connection V H) : Prop := c ∈ w.past ∨ ∃ n, w.conn? n = some c

/-- The positions the slot and the readers' setups hold. -/
def Knows (w : Cluster N V H) (lsn : LSN) : Prop := w.slot = some lsn ∨ ∃ n, (w.readers n).bind (·.known?) = some lsn

/-- What a step does, as far as positions and connections go. -/
inductive Effect (cfg : ReaderConfig V) (w w' : Cluster N V H) : ClusterAct N V H → Prop
  | quiet {a} : (∀ c, w'.Has c ↔ w.Has c) → w'.slot = w.slot → w'.origin = w.origin →
      (∀ p, w'.Knows p → w.Knows p) → Effect cfg w w' a
  | created {a lsn} : w.slot = none → w'.slot = some lsn → w'.origin = some lsn →
      (∀ c, w'.Has c ↔ w.Has c) → (∀ p, w'.Knows p → p = lsn ∨ w.Knows p) → Effect cfg w w' a
  | reported {a c lsn} : w.Has c → lsn ∈ reports c.session.log → w'.slot = some lsn → w'.origin = w.origin →
      (∀ c, w'.Has c ↔ w.Has c) → (∀ p, w'.Knows p → p = lsn ∨ w.Knows p) → Effect cfg w w' a
  | started {n r startLSN stream} : w.readers n = some r → r.point = .slotKnown startLSN →
      w'.slot = w.slot → w'.origin = w.origin →
      (∀ c, w'.Has c ↔ w.Has c ∨
        c = { served := max startLSN (w.slot.getD 0), stream, session := start startLSN r.decoder }) →
      (∀ p, w'.Knows p → w.Knows p) → Effect cfg w w' (.reader n (.startReplication stream))
  | moved {n c c' a} : w.conn? n = some c → c.step cfg.session a = some c' → w'.slot = w.slot →
      w'.origin = w.origin → (∀ d, w'.Has d → w.Has d ∨ d = c') → (∀ d, w.Has d → w'.Has d ∨ d = c) → w'.Has c' →
      (∀ p, w'.Knows p → w.Knows p) → Effect cfg w w' (.reader n (.conn a))

section Effects

variable [DecidableEq N] {cfg : ReaderConfig V} {w w' : Cluster N V H} {n : N} {r' : Option (Reader V H)}

theorem conn?_of_readers (hreaders : w'.readers = Function.update w.readers n r') (m : N) :
    w'.conn? m = if m = n then r'.bind (·.connection?) else w.conn? m := by
  rw [conn?, hreaders, Function.update_apply]
  split <;> rfl

/-- Only the reader that moved may hold a new position. -/
theorem knows_of_readers (hreaders : w'.readers = Function.update w.readers n r') {p : LSN}
    (h : ∃ m, (w'.readers m).bind (·.known?) = some p) : r'.bind (·.known?) = some p ∨ w.Knows p := by
  obtain ⟨m, hm⟩ := h
  rw [hreaders, Function.update_apply] at hm
  split at hm
  · exact .inl hm
  · exact .inr (.inr ⟨m, hm⟩)

theorem has_of_readers (hreaders : w'.readers = Function.update w.readers n r') (hpast : w'.past = w.past)
    (hconn : r'.bind (·.connection?) = w.conn? n) (c : Connection V H) : w'.Has c ↔ w.Has c := by
  have hsame (m : N) : w'.conn? m = w.conn? m := by
    rw [conn?_of_readers hreaders]
    split
    · next h => rw [hconn, h]
    · rfl
  simp only [Has, hpast, hsame]

/-- A reader moves on, and its connection with it if it has one. -/
theorem effect_quiet {a : ClusterAct N V H} (n : N) (r' : Option (Reader V H))
    (hreaders : w'.readers = Function.update w.readers n r')
    (hpast : w'.past = w.past) (hslot : w'.slot = w.slot) (horigin : w'.origin = w.origin)
    (hconn : r'.bind (·.connection?) = w.conn? n) (hknown : ∀ p, r'.bind (·.known?) = some p → w.Knows p) :
    Effect cfg w w' a := by
  refine .quiet (has_of_readers hreaders hpast hconn) hslot horigin fun p hp => ?_
  rcases hp with hp | hp
  · exact .inl (hslot ▸ hp)
  · exact (knows_of_readers hreaders hp).elim (hknown p) id

/-- A reader leaves its connection, which is then over. -/
theorem effect_leave {a : ClusterAct N V H} {c : Connection V H} (hc : w.conn? n = some c)
    (hconn : r'.bind (·.connection?) = none) (hknown : r'.bind (·.known?) = none) : Effect cfg w (w.leave n r' c) a := by
  have hreaders : (w.leave n r' c).readers = Function.update w.readers n r' := rfl
  refine .quiet (fun d => ?_) rfl rfl fun p hp => ?_
  · constructor
    · rintro (hd | ⟨m, hm⟩)
      · rcases List.mem_append.mp hd with hd | hd
        · exact .inl hd
        · rw [List.mem_singleton.mp hd]
          exact .inr ⟨n, hc⟩
      · rw [conn?_of_readers hreaders] at hm
        split at hm
        · rw [hconn] at hm; cases hm
        · exact .inr ⟨m, hm⟩
    · rintro (hd | ⟨m, hm⟩)
      · exact .inl (List.mem_append_left _ hd)
      · by_cases hmn : m = n
        · rw [hmn, hc] at hm
          cases hm
          exact .inl (List.mem_append_right _ (List.mem_singleton.mpr rfl))
        · exact .inr ⟨m, by rw [conn?_of_readers hreaders, if_neg hmn]; exact hm⟩
  · rcases hp with hp | hp
    · exact .inl hp
    · rcases knows_of_readers hreaders hp with hk | hk
      · rw [hknown] at hk; cases hk
      · exact hk

end Effects

section Step

variable [DecidableEq N] {cfg : ReaderConfig V} {w w' : Cluster N V H} {n : N} {r : Reader V H}

/-- A reader outside a connection goes to a point that is none either. -/
theorem effect_setReader {a : ClusterAct N V H} {r' : Reader V H} (hr : w.readers n = some r)
    (hconn : r.connection? = none) (hconn' : r'.connection? = none) (hknown : ∀ p, r'.known? = some p → w.Knows p) :
    Effect cfg w (w.setReader n r') a :=
  effect_quiet n (some r') rfl rfl rfl rfl
    (by rw [conn?, hr]; exact hconn'.trans hconn.symm) hknown

theorem readSlot_holds (cfg : ReaderConfig V) (r : Reader V H) (lsn : LSN) :
    (r.readSlot cfg lsn).connection? = none ∧ (r.readSlot cfg lsn).known? = some lsn := by
  simp only [Reader.readSlot, parseLSN_string]
  exact ⟨rfl, rfl⟩

theorem ensurePublication_effect {a : ClusterAct N V H} (hr : w.readers n = some r) (hconn : r.connection? = none)
    (queried created : Bool) : Effect cfg w (w.ensurePublication cfg n r queried created) a := by
  have hfail : Effect cfg w (w.setReader n (r.fail cfg)) a :=
    effect_setReader hr hconn rfl fun p hp => (by cases hp)
  unfold ensurePublication
  split
  · exact hfail
  · split
    · exact effect_setReader hr hconn rfl fun p hp => (by cases hp)
    · split
      · exact hfail
      · split
        · exact effect_quiet n (some (r.goTo .published)) rfl rfl rfl rfl
            (by rw [conn?, hr]; exact hconn.symm) fun p hp => (by cases hp)
        · exact hfail

theorem ensureReplicationSlot_effect {a : ClusterAct N V H} (hr : w.readers n = some r) (hconn : r.connection? = none)
    (queried : Bool) (created : Option LSN) : Effect cfg w (w.ensureReplicationSlot cfg n r queried created) a := by
  have hfail : Effect cfg w (w.setReader n (r.fail cfg)) a :=
    effect_setReader hr hconn rfl fun p hp => (by cases hp)
  unfold ensureReplicationSlot
  split
  · exact hfail
  · split
    · next lsn hslot =>
      obtain ⟨hc, hk⟩ := readSlot_holds cfg r lsn
      refine effect_setReader hr hconn hc fun p hp => ?_
      rw [hk] at hp
      exact .inl (hslot.trans hp)
    · next hslot =>
      split
      · exact hfail
      · split
        · exact hfail
        · next lsn =>
          obtain ⟨hc, hk⟩ := readSlot_holds cfg { r with slotCreated := true } lsn
          refine .created hslot rfl rfl (has_of_readers (n := n) rfl rfl ?_) fun p hp => ?_
          · rw [conn?, hr]
            exact hc.trans hconn.symm
          · rcases hp with hp | hp
            · exact .inl (Option.some.inj hp).symm
            · rcases knows_of_readers (w := w) (n := n) rfl hp with hp | hp
              · exact .inl (Option.some.inj (hk.symm.trans hp)).symm
              · exact .inr hp

theorem startReplication_effect {startLSN : LSN} (hr : w.readers n = some r) (hpoint : r.point = .slotKnown startLSN)
    (stream : List Sent) :
    Effect cfg w (w.startReplication cfg n r startLSN stream) (.reader n (.startReplication stream)) := by
  have hconn : w.conn? n = none := by simp [conn?, hr, Reader.connection?, hpoint]
  have hreaders : (w.startReplication cfg n r startLSN stream).readers = Function.update w.readers n
      (some (r.stream cfg { served := max startLSN (w.slot.getD 0), stream, session := start startLSN r.decoder })) := rfl
  refine .started hr hpoint rfl rfl (fun c => ?_) fun p hp => ?_
  · constructor
    · rintro (hc | ⟨m, hm⟩)
      · exact .inl (.inl hc)
      · rw [conn?_of_readers hreaders] at hm
        split at hm
        · exact .inr (Option.some.inj hm).symm
        · exact .inl (.inr ⟨m, hm⟩)
    · rintro ((hc | ⟨m, hm⟩) | rfl)
      · exact .inl hc
      · have hmn : m ≠ n := by rintro rfl; rw [hconn] at hm; cases hm
        exact .inr ⟨m, by rw [conn?_of_readers hreaders, if_neg hmn]; exact hm⟩
      · exact .inr ⟨n, by rw [conn?_of_readers hreaders, if_pos rfl]; rfl⟩
  · rcases hp with hp | hp
    · exact .inl hp
    · rcases knows_of_readers hreaders hp with hp | hp
      · cases hp
      · exact hp

theorem conn_effect {c c' : Connection V H} {a : ConnAct V H} (hr : w.readers n = some r) (hpoint : r.point = .streaming c)
    (ha : c.step cfg.session a = some c') :
    Effect cfg w (w.setReader n (r.goTo (.streaming c'))) (.reader n (.conn a)) := by
  have hconn : w.conn? n = some c := by simp [conn?, hr, Reader.connection?, hpoint]
  have hreaders : (w.setReader n (r.goTo (.streaming c'))).readers =
      Function.update w.readers n (some (r.goTo (.streaming c'))) := rfl
  refine .moved hconn ha rfl rfl (fun d hd => ?_) (fun d hd => ?_) ?_ fun p hp => ?_
  · rcases hd with hd | ⟨m, hm⟩
    · exact .inl (.inl hd)
    · rw [conn?_of_readers hreaders] at hm
      split at hm
      · exact .inr (Option.some.inj hm).symm
      · exact .inl (.inr ⟨m, hm⟩)
  · rcases hd with hd | ⟨m, hm⟩
    · exact .inl (.inl hd)
    · by_cases hmn : m = n
      · rw [hmn, hconn] at hm
        exact .inr (Option.some.inj hm).symm
      · exact .inl (.inr ⟨m, by rw [conn?_of_readers hreaders, if_neg hmn]; exact hm⟩)
  · exact .inr ⟨n, by rw [conn?_of_readers hreaders, if_pos rfl]; rfl⟩
  · rcases hp with hp | hp
    · exact .inl hp
    · rcases knows_of_readers hreaders hp with hp | hp
      · cases hp
      · exact hp

theorem connection?_eq_none (h : ∀ c, r.point ≠ .streaming c) : r.connection? = none := by
  unfold Reader.connection?
  split
  · next c hp => exact absurd hp (h c)
  · rfl

theorem readerStep_effect {a : ReaderAct V H} (hr : w.readers n = some r)
    (ha : w.readerStep cfg n r r.point a = some w') : Effect cfg w w' (.reader n a) := by
  have hfail (hconn : r.connection? = none) : Effect cfg w (w.setReader n (r.fail cfg)) (.reader n a) :=
    effect_setReader hr hconn rfl fun p hp => (by cases hp)
  have hnext (hconn : r.connection? = none) (ok : Bool) {point : ReaderPoint V H} (hc : (r.goTo point).connection? = none)
      (hk : (r.goTo point).known? = none) : Effect cfg w (w.setReader n (r.next cfg ok point)) (.reader n a) := by
    unfold Reader.next
    split
    · exact effect_setReader hr hconn hc fun p hp => (by rw [hk] at hp; cases hp)
    · exact hfail hconn
  unfold readerStep at ha
  split at ha
  · next hp =>
    cases ha
    exact effect_setReader hr (connection?_eq_none (by simp [hp])) rfl fun p hp => (by cases hp)
  · next ok hp => cases ha; exact hnext (connection?_eq_none (by simp [hp])) ok rfl rfl
  · next ok hp => cases ha; exact hnext (connection?_eq_none (by simp [hp])) ok rfl rfl
  · next hp => cases ha; exact ensurePublication_effect hr (connection?_eq_none (by simp [hp])) _ _
  · next hp => cases ha; exact ensureReplicationSlot_effect hr (connection?_eq_none (by simp [hp])) _ _
  · next hp => cases ha; exact startReplication_effect hr hp _
  · cases ha; exact .quiet (fun _ => Iff.rfl) rfl rfl fun _ h => h
  · next hp => cases ha; exact hfail (connection?_eq_none (by simp [hp]))
  · next hp =>
    obtain ⟨c', hc', rfl⟩ := Option.map_eq_some_iff.mp ha
    exact conn_effect hr hp hc'
  · next c again hp =>
    split at ha
    · cases ha
      refine effect_leave (by simp [conn?, hr, Reader.connection?, hp]) ?_ ?_ <;> cases again <;> rfl
    · cases ha
  · next hp =>
    cases ha
    exact effect_setReader hr (connection?_eq_none (by simp [hp])) rfl fun p hp => (by cases hp)
  · cases ha

/-- **One case for each thing a step can do** to positions and connections. -/
theorem step_effect {a : ClusterAct N V H} (ha : w.step cfg a = some w') : Effect cfg w w' a := by
  cases a with
  | boot n =>
    simp only [step] at ha
    split at ha
    · next hnone =>
      cases ha
      refine effect_quiet n (some (newReader cfg)) rfl rfl rfl rfl ?_ fun p hp => (by cases hp)
      rw [conn?, Option.isNone_iff_eq_none.mp hnone]
      rfl
    · cases ha
  | crash n =>
    simp only [step, Option.bind_eq_bind, Option.bind_eq_some_iff] at ha
    obtain ⟨r, hr, ha⟩ := ha
    split at ha
    · next c hc => cases ha; exact effect_leave (by rw [conn?, hr]; exact hc) rfl rfl
    · next hc =>
      cases ha
      exact effect_quiet n none rfl rfl rfl rfl (by rw [conn?, hr]; exact hc.symm) fun p hp => (by cases hp)
  | reader n a =>
    simp only [step, Option.bind_eq_bind, Option.bind_eq_some_iff] at ha
    obtain ⟨r, hr, ha⟩ := ha
    exact readerStep_effect hr ha
  | report n lsn =>
    simp only [step, Option.bind_eq_bind, Option.bind_eq_some_iff] at ha
    obtain ⟨r, hr, c, hc, ha⟩ := ha
    split at ha
    · next hlsn =>
      cases ha
      refine .reported (c := c) (.inr ⟨n, by rw [conn?, hr]; exact hc⟩) hlsn rfl rfl (fun _ => Iff.rfl) fun p hp => ?_
      exact hp.imp (fun h => (Option.some.inj h).symm) .inr
    · cases ha
  | lateReport lsn =>
    simp only [step] at ha
    split at ha
    · next hany =>
      cases ha
      obtain ⟨c, hc, hlsn⟩ := List.any_eq_true.mp hany
      refine .reported (c := c) (.inl hc) (of_decide_eq_true hlsn) rfl rfl (fun _ => Iff.rfl) fun p hp => ?_
      exact hp.imp (fun h => (Option.some.inj h).symm) .inr
    · cases ha

end Step

/-! ## Safe positions -/

section Safe

variable (wal : List Transaction) (handles : List (CDCEvent V) → H → Bool → Prop)

/-- Every transaction of the slot that ends at or before `lsn` was delivered by
some connection. -/
def Safe (w : Cluster N V H) (lsn : LSN) : Prop :=
  ∃ o, w.origin = some o ∧ ∀ t ∈ wal, o < t.ends → t.ends ≤ lsn → ∃ c, w.Has c ∧ c.Delivered handles t

structure Ok (w : Cluster N V H) : Prop where
  known : ∀ p, w.Knows p → w.Safe wal handles p
  conns : ∀ c, w.Has c → c.Ok wal handles ∧ w.Safe wal handles c.served
  origin : w.slot = none → w.origin = none

/-- What the database sends and the handler's calls are as they should be. -/
def Allowed (w : Cluster N V H) : ClusterAct N V H → Prop
  | .reader n (.startReplication stream) => ∀ r startLSN, w.readers n = some r → r.point = .slotKnown startLSN →
      Carries wal (max startLSN (w.slot.getD 0)) stream
  | .reader n (.conn a) => ∀ c, w.conn? n = some c → a.Allowed handles c
  | _ => True

variable {wal handles} {w w' : Cluster N V H}

theorem Safe.mono {lsn : LSN} (h : w.Safe wal handles lsn) (horigin : w'.origin = w.origin)
    (hhas : ∀ c, w.Has c → ∃ c', w'.Has c' ∧ c.Extends c') : w'.Safe wal handles lsn := by
  obtain ⟨o, ho, hall⟩ := h
  refine ⟨o, horigin.trans ho, fun t ht hlt hle => ?_⟩
  obtain ⟨c, hc, hd⟩ := hall t ht hlt hle
  obtain ⟨c', hc', hext⟩ := hhas c hc
  exact ⟨c', hc', hd.mono hext⟩

theorem Safe.same {lsn : LSN} (h : w.Safe wal handles lsn) (horigin : w'.origin = w.origin)
    (hhas : ∀ c, w'.Has c ↔ w.Has c) : w'.Safe wal handles lsn :=
  h.mono horigin fun c hc => ⟨c, (hhas c).mpr hc, .refl c⟩

/-- The positions a slot and a setup agree on. -/
theorem Safe.max {p q : LSN} (hp : w.Safe wal handles p) (hq : w.Safe wal handles q) : w.Safe wal handles (max p q) := by
  rcases Nat.le_total p q with h | h
  · rwa [Nat.max_eq_right h]
  · rwa [Nat.max_eq_left h]

/-- A reported position is safe: what ends after the position served from was
delivered by this connection, the rest before it. -/
theorem Ok.reported (h : w.Ok wal handles) {c : Connection V H} (hc : w.Has c) {lsn : LSN}
    (hlsn : lsn ∈ reports c.session.log) : w.Safe wal handles lsn := by
  obtain ⟨hok, o, ho, hall⟩ := h.conns c hc
  refine ⟨o, ho, fun t ht hlt hle => ?_⟩
  rcases Nat.lt_or_ge c.served t.ends with hserved | hserved
  · exact ⟨c, hc, hok.delivered hlsn ht hserved hle⟩
  · exact hall t ht hlt hserved

theorem Ok.step [DecidableEq N] {cfg : ReaderConfig V} {a : ClusterAct N V H} (h : w.Ok wal handles)
    (hallowed : w.Allowed wal handles a) (ha : w.step cfg a = some w') : w'.Ok wal handles := by
  cases step_effect ha with
  | quiet hhas hslot horigin hknown =>
    have hsafe {p : LSN} (hp : w.Safe wal handles p) : w'.Safe wal handles p := hp.same horigin hhas
    exact {
      known := fun p hp => hsafe (h.known p (hknown p hp))
      conns := fun c hc => ((h.conns c ((hhas c).mp hc)).imp id hsafe)
      origin := fun hn => horigin.trans (h.origin (hslot.symm.trans hn)) }
  | created hnone hslot horigin hhas hknown =>
    -- A slot without a beginning makes no position safe, so nothing is known and no connection was made yet.
    have hfresh {p : LSN} (hp : w.Safe wal handles p) : False := by
      obtain ⟨o, ho, -⟩ := hp
      rw [h.origin hnone] at ho
      cases ho
    refine { known := fun p hp => ?_, conns := fun c hc => (hfresh (h.conns c ((hhas c).mp hc)).2).elim,
             origin := fun hn => (by rw [hslot] at hn; cases hn) }
    rcases hknown p hp with rfl | hp
    · exact ⟨p, horigin, fun t _ hlt hle => absurd hlt (Nat.not_lt.mpr hle)⟩
    · exact (hfresh (h.known p hp)).elim
  | reported hc hlsn hslot horigin hhas hknown =>
    have hsafe {p : LSN} (hp : w.Safe wal handles p) : w'.Safe wal handles p := hp.same horigin hhas
    refine { known := fun p hp => ?_, conns := fun c hc => ((h.conns c ((hhas c).mp hc)).imp id hsafe),
             origin := fun hn => (by rw [hslot] at hn; cases hn) }
    rcases hknown p hp with rfl | hp
    · exact hsafe (h.reported hc hlsn)
    · exact hsafe (h.known p hp)
  | @started n r startLSN stream hr hpoint hslot horigin hhas hknown =>
    have hsafe {p : LSN} (hp : w.Safe wal handles p) : w'.Safe wal handles p :=
      hp.mono horigin fun c hc => ⟨c, (hhas c).mpr (.inl hc), .refl c⟩
    have hstart : w.Safe wal handles startLSN := h.known _ (.inr ⟨n, by simp [hr, Reader.known?, hpoint]⟩)
    refine { known := fun p hp => hsafe (h.known p (hknown p hp)), conns := fun c hc => ?_,
             origin := fun hn => horigin.trans (h.origin (hslot.symm.trans hn)) }
    rcases (hhas c).mp hc with hc | rfl
    · exact (h.conns c hc).imp id hsafe
    · refine ⟨Connection.ok_start (hallowed r startLSN hr hpoint) (Nat.le_max_left _ _), hsafe (hstart.max ?_)⟩
      cases hs : w.slot with
      | some p => exact h.known p (.inl hs)
      | none =>
        obtain ⟨o, ho, -⟩ := hstart
        rw [h.origin hs] at ho
        cases ho
  | @moved n c c' a hc hmove hslot horigin hback hforth hnew hknown =>
    have hcok := (h.conns c (.inr ⟨n, hc⟩))
    have hext := Connection.extends_of_step hmove
    have hsafe {p : LSN} (hp : w.Safe wal handles p) : w'.Safe wal handles p := hp.mono horigin fun d hd =>
      (hforth d hd).elim (fun hd' => ⟨d, hd', .refl d⟩) fun heq => ⟨c', hnew, heq ▸ hext⟩
    refine { known := fun p hp => hsafe (h.known p (hknown p hp)), conns := fun d hd => ?_,
             origin := fun hn => horigin.trans (h.origin (hslot.symm.trans hn)) }
    rcases hback d hd with hd | rfl
    · exact (h.conns d hd).imp id hsafe
    · refine ⟨hcok.1.step (hallowed c hc) hmove, ?_⟩
      rw [hext.served]
      exact hsafe hcok.2

/-- A slot that may be there already, and no reader yet. -/
def onSlot (slot : Option LSN) (publication : Bool) : Cluster N V H := { slot, origin := slot, publication }

theorem ok_onSlot (slot : Option LSN) (publication : Bool) : (onSlot slot publication : Cluster N V H).Ok wal handles where
  known p hp := by
    rcases hp with hp | ⟨n, hn⟩
    · exact ⟨p, hp, fun t _ hlt hle => absurd hlt (Nat.not_lt.mpr hle)⟩
    · cases hn
  conns c hc := by
    rcases hc with hc | ⟨n, hn⟩
    · cases hc
    · cases hn
  origin h := h

/-- **Nothing behind the slot is lost.** Over every life of a slot (any number
of readers, reconnects, crashes and restarts), each transaction between the
slot's beginning and its position was delivered by some connection. -/
theorem slot_safe [DecidableEq N] {cfg : ReaderConfig V} {slot : Option LSN} {publication : Bool}
    (hrun : Reaches (step cfg) (Allowed wal handles) (onSlot slot publication) w) {lsn : LSN}
    (hlsn : w.slot = some lsn) : w.Safe wal handles lsn :=
  (hrun.invariant (fun _ _ _ h hok ha => h.step hok ha) (ok_onSlot slot publication)).known lsn (.inl hlsn)

end Safe

/-! ## The waits between attempts -/

end Cluster

/-- The wait after `failures` failed attempts in a row. -/
def ReaderConfig.pace (cfg : ReaderConfig V) (failures : ℕ) : ℕ :=
  if failures = 0 then cfg.initialBackoff else min (cfg.initialBackoff * 2 ^ failures) cfg.maxBackoff

theorem ReaderConfig.pace_succ (cfg : ReaderConfig V) (k : ℕ) :
    cfg.pace (k + 1) = min (cfg.pace k * 2) cfg.maxBackoff := by
  unfold pace
  rw [if_neg (Nat.succ_ne_zero k), Nat.pow_succ, ← Nat.mul_assoc]
  split
  · next h => rw [h, Nat.pow_zero, Nat.mul_one]
  · omega

/-- The next wait follows from the failures so far, as every wait did. -/
structure Reader.Paced (cfg : ReaderConfig V) (r : Reader V H) : Prop where
  backoff : r.backoff = cfg.pace r.failures
  waits : ∀ x ∈ r.waits, x.2 = cfg.pace x.1

section Paced

variable {cfg : ReaderConfig V} {r : Reader V H}

theorem Reader.Paced.goTo (h : r.Paced cfg) (point : ReaderPoint V H) : (r.goTo point).Paced cfg := ⟨h.backoff, h.waits⟩

theorem Reader.Paced.fail (h : r.Paced cfg) : (r.fail cfg).Paced cfg where
  backoff := by rw [Reader.fail, cfg.pace_succ, h.backoff]
  waits x hx := by
    rcases List.mem_append.mp hx with hx | hx
    · exact h.waits x hx
    · rw [List.mem_singleton.mp hx]
      exact h.backoff

theorem Reader.Paced.next (h : r.Paced cfg) (ok : Bool) (point : ReaderPoint V H) : (r.next cfg ok point).Paced cfg := by
  unfold Reader.next
  split
  · exact h.goTo point
  · exact h.fail

theorem Reader.Paced.readSlot (h : r.Paced cfg) (lsn : LSN) : (r.readSlot cfg lsn).Paced cfg := by
  unfold Reader.readSlot
  split
  · exact h.goTo _
  · exact h.fail

theorem Reader.Paced.leave (h : r.Paced cfg) (c : Connection V H) (again : Bool) : (r.leave cfg c again).Paced cfg := by
  have hkept : ({ r with decoder := c.session.decoder } : Reader V H).Paced cfg := ⟨h.backoff, h.waits⟩
  cases again with
  | true => exact hkept.fail
  | false => exact ⟨h.backoff, h.waits⟩

namespace Cluster

variable [DecidableEq N] {w w' : Cluster N V H} {n : N}

/-- A step of a reader moves that reader, if any. -/
theorem readerStep_paced {a : ReaderAct V H} (hr : w.readers n = some r) (h : r.Paced cfg)
    (ha : w.readerStep cfg n r r.point a = some w') :
    ∃ r', w'.readers = Function.update w.readers n (some r') ∧ r'.Paced cfg := by
  unfold readerStep at ha
  split at ha
  · cases ha; exact ⟨_, rfl, h.goTo _⟩
  · cases ha; exact ⟨_, rfl, h.next _ _⟩
  · cases ha; exact ⟨_, rfl, h.next _ _⟩
  · cases ha
    unfold ensurePublication
    split
    · exact ⟨_, rfl, h.fail⟩
    · split
      · exact ⟨_, rfl, h.goTo _⟩
      · split
        · exact ⟨_, rfl, h.fail⟩
        · split
          · exact ⟨_, rfl, h.goTo _⟩
          · exact ⟨_, rfl, h.fail⟩
  · cases ha
    have hcreated : ({ r with slotCreated := true } : Reader V H).Paced cfg := ⟨h.backoff, h.waits⟩
    unfold ensureReplicationSlot
    split
    · exact ⟨_, rfl, h.fail⟩
    · split
      · exact ⟨_, rfl, h.readSlot _⟩
      · split
        · exact ⟨_, rfl, h.fail⟩
        · split
          · exact ⟨_, rfl, h.fail⟩
          · exact ⟨_, rfl, hcreated.readSlot _⟩
  · cases ha; exact ⟨_, rfl, ⟨rfl, h.waits⟩⟩
  · cases ha; exact ⟨r, by rw [← hr, Function.update_eq_self], h⟩
  · cases ha; exact ⟨_, rfl, h.fail⟩
  · obtain ⟨c', -, rfl⟩ := Option.map_eq_some_iff.mp ha
    exact ⟨_, rfl, h.goTo _⟩
  · split at ha <;> cases ha
    exact ⟨_, rfl, h.leave _ _⟩
  · cases ha; exact ⟨_, rfl, h.goTo _⟩
  · cases ha

theorem step_paced {a : ClusterAct N V H} (h : ∀ n r, w.readers n = some r → r.Paced cfg)
    (ha : w.step cfg a = some w') : ∀ n r, w'.readers n = some r → r.Paced cfg := by
  have hset (m : N) (r' : Option (Reader V H)) (hreaders : w'.readers = Function.update w.readers m r')
      (hr' : ∀ r ∈ r', r.Paced cfg) : ∀ n r, w'.readers n = some r → r.Paced cfg := by
    intro n r hr
    rw [hreaders, Function.update_apply] at hr
    split at hr
    · exact hr' r hr
    · exact h n r hr
  cases a with
  | boot n =>
    simp only [step] at ha
    split at ha <;> cases ha
    exact hset n (some (newReader cfg)) rfl (by rintro r ⟨⟩; exact ⟨rfl, by simp [newReader]⟩)
  | crash n =>
    simp only [step, Option.bind_eq_bind, Option.bind_eq_some_iff] at ha
    obtain ⟨r, -, ha⟩ := ha
    split at ha <;> cases ha <;> exact hset n none rfl (by simp)
  | reader n a =>
    simp only [step, Option.bind_eq_bind, Option.bind_eq_some_iff] at ha
    obtain ⟨r, hr, ha⟩ := ha
    obtain ⟨r', hreaders, hr'⟩ := readerStep_paced hr (h n r hr) ha
    exact hset _ _ hreaders (by rintro _ ⟨⟩; exact hr')
  | report n lsn =>
    simp only [step, Option.bind_eq_bind, Option.bind_eq_some_iff] at ha
    obtain ⟨_, _, _, _, ha⟩ := ha
    split at ha <;> cases ha
    exact h
  | lateReport lsn =>
    simp only [step] at ha
    split at ha <;> cases ha
    exact h

end Cluster

end Paced

/-- **The pace of reconnection.** In every life of a slot, every wait of every
reader doubles with the attempts that failed in a row before it, up to the
configured most, and the first wait after the stream was up is the configured
first. -/
theorem reconnect_waits [DecidableEq N] (cfg : ReaderConfig V) (slot : Option LSN) (publication : Bool)
    (w : Cluster N V H) (hrun : Reaches (Cluster.step cfg) (fun _ _ => True) (Cluster.onSlot slot publication) w) (n : N)
    (r : Reader V H) (hr : w.readers n = some r) (failures wait : ℕ) (hwait : (failures, wait) ∈ r.waits) :
    wait = if failures = 0 then cfg.initialBackoff else min (cfg.initialBackoff * 2 ^ failures) cfg.maxBackoff :=
  (hrun.invariant (P := fun w : Cluster N V H => ∀ n r, w.readers n = some r → r.Paced cfg)
    (fun _ _ _ h _ ha => Cluster.step_paced h ha)
    (fun _ _ h => by cases h) n r hr).waits _ hwait

/-- The first two attempts to connect fail. -/
def failsTwice : List (ClusterAct Unit Unit Unit) :=
  [.boot (), .reader () (.connect false), .reader () .waited, .reader () (.connect false)]

theorem reconnect_waits_twice :
    ∃ w r, runSteps (Cluster.step ⟨unitConfig 1, 0, 0, true, true⟩) (Cluster.onSlot none false) failsTwice = some w ∧
      w.readers () = some r ∧ (1, 2000) ∈ r.waits ∧ 2000 = min (1000 * 2 ^ 1) 30000 := by
  refine ⟨_, _, rfl, rfl, List.mem_append_right _ (List.mem_singleton.mpr rfl), ?_⟩
  exact reconnect_waits ⟨unitConfig 1, 0, 0, true, true⟩ none false _
    (@reaches_of_runSteps _ _ _ failsTwice _ _ rfl) () _ rfl 1 2000
    (List.mem_append_right _ (List.mem_singleton.mpr rfl))

end Gtc.Wal
