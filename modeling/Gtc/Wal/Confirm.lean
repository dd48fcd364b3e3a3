/-
At-least-once confirmation: a position is reported to the server only when
every event of the transactions up to it was handled, and reported positions
never decrease.

`Coverage` follows the events from the decoder to the handler: behind every
position that waits to be confirmed (on a unit, in `pendingAck`, or in the
work left of a message) stand all the events it vouches for, and no decoded
event is lost on the way.
-/
import Gtc.Lib.Program
import Gtc.Wal.Control

namespace Gtc.Wal

open Lib

variable {V : Type}

/-! ## What the server sends -/

/-- A message, with the end position of the transaction it belongs to. -/
structure Sent where
  msg : BackendMessage
  txn : Option LSN

/-- `Begin` or `Commit`. -/
def isBoundary : BackendMessage → Bool
  | .xLogData _ _ (.begin _ _ _) => true
  | .xLogData _ _ (.commit _) => true
  | _ => false

def isKeepalive : BackendMessage → Bool
  | .keepalive _ _ => true
  | _ => false

/-- **What PostgreSQL guarantees of a session's messages**, from a point where
every transaction still to come ends after `lo`, inside the transaction `cur`
or outside any: transactions come whole and in increasing order of their end,
and a keepalive between them carries a position before the end of every
transaction to come. The messages may stop anywhere. -/
inductive Served : LSN → Option LSN → List Sent → Prop
  | nil {lo cur} : Served lo cur []
  | begin {lo e walStart walEnd finalLSN commitTime xid ms} : lo < e → Served lo (some e) ms →
      Served lo none (⟨.xLogData walStart walEnd (.begin finalLSN commitTime xid), some e⟩ :: ms)
  | inside {lo e m ms} : isBoundary m = false → Served lo (some e) ms → Served lo (some e) (⟨m, some e⟩ :: ms)
  | commit {lo e walStart walEnd ms} : Served e none ms →
      Served lo (some e) (⟨.xLogData walStart walEnd (.commit e), some e⟩ :: ms)
  | keepalive {lo w reply ms} : Served (max lo w) none ms → Served lo none (⟨.keepalive w reply, none⟩ :: ms)
  | outside {lo m ms} : isBoundary m = false → isKeepalive m = false → Served lo none ms →
      Served lo none (⟨m, none⟩ :: ms)

/-- Every transaction to come ends after `lo`. -/
theorem Served.lt {lo : LSN} {cur : Option LSN} {ms : List Sent} (h : Served lo cur ms) (hcur : ∀ e ∈ cur, lo < e) :
    ∀ m ∈ ms, ∀ e ∈ m.txn, lo < e := by
  induction h with
  | nil => simp
  | begin hlt _ ih =>
    have hrest := ih (by simpa using hlt)
    simpa using ⟨hlt, hrest⟩
  | inside _ _ ih =>
    have hlt := hcur _ rfl
    simpa using ⟨hlt, ih hcur⟩
  | commit _ ih =>
    have hlt := hcur _ rfl
    have hrest := ih (by simp)
    simpa using ⟨hlt, fun m hm e he => Nat.lt_trans hlt (hrest m hm e he)⟩
  | keepalive _ ih =>
    have hrest := ih (by simp)
    simpa using fun m hm e he => Nat.lt_of_le_of_lt (Nat.le_max_left _ _) (hrest m hm e he)
  | outside _ _ _ ih => simpa using ih (by simp)

/-- The decoder acknowledges at a commit and at a keepalive outside a
transaction, nowhere else, and only `Begin` and `Commit` change whether it is
inside one. -/
theorem decode_ack {tm : TypeMap V} {d d' : Decoder} {m : BackendMessage} {result : DecodeResult V}
    (h : d.decode tm m = .ok (result, d')) (hm : isBoundary m = false) :
    d'.txn.inTxn = d.txn.inTxn ∧
      (result.ackLSN = 0 ∨ d.txn.inTxn = false ∧ ∃ reply, m = .keepalive result.ackLSN reply) := by
  cases m with
  | errorResponse | other => cases h; exact ⟨rfl, .inl rfl⟩
  | malformed err => cases h
  | keepalive w reply =>
    cases hin : d.txn.inTxn with
    | true => simp only [Decoder.decode, hin, if_true] at h; cases h; exact ⟨hin, .inl rfl⟩
    | false => simp only [Decoder.decode, hin] at h; cases h; exact ⟨hin, .inr ⟨rfl, reply, rfl⟩⟩
  | xLogData walStart walEnd msg =>
    simp only [Decoder.decode, bind_eq_ok] at h
    obtain ⟨r, hr, h⟩ := h
    cases h
    cases msg with
    | begin | commit => cases hm
    | relation | message | other => cases hr; exact ⟨rfl, .inl rfl⟩
    | stream goType => cases hr
    | insert relationID tuple =>
      simp only [Decoder.decodeWALData, bind_eq_ok] at hr
      obtain ⟨rel, -, new, -, hr⟩ := hr
      cases hr; exact ⟨rfl, .inl rfl⟩
    | update relationID oldTuple newTuple =>
      simp only [Decoder.decodeWALData, bind_eq_ok] at hr
      obtain ⟨rel, -, new, -, old, -, hr⟩ := hr
      cases hr; exact ⟨rfl, .inl rfl⟩
    | delete relationID oldTuple =>
      simp only [Decoder.decodeWALData, bind_eq_ok] at hr
      obtain ⟨rel, -, old, -, hr⟩ := hr
      cases hr; exact ⟨rfl, .inl rfl⟩
    | truncate relIDs =>
      simp only [Decoder.decodeWALData, bind_eq_ok] at hr
      obtain ⟨events, -, hr⟩ := hr
      cases hr; exact ⟨rfl, .inl rfl⟩

/-- **What a message acknowledges lies behind everything to come**: the position
of its result is before the end of every transaction in the messages after it. -/
theorem Served.decode {tm : TypeMap V} {lo : LSN} {cur : Option LSN} {m : Sent} {ms : List Sent}
    (h : Served lo cur (m :: ms)) (hlo : ∀ e ∈ cur, lo < e) {d d' : Decoder} (hin : cur.isSome = true → d.txn.inTxn = true)
    {result : DecodeResult V} (hd : d.decode tm m.msg = .ok (result, d')) :
    (∃ lo' cur', Served lo' cur' ms ∧ (∀ e ∈ cur', lo' < e) ∧ (cur'.isSome = true → d'.txn.inTxn = true)) ∧
      (result.ackLSN = 0 ∨ ∀ m' ∈ ms, ∀ e ∈ m'.txn, result.ackLSN < e) := by
  cases h with
  | begin hlt hms =>
    cases hd
    exact ⟨⟨_, _, hms, by simpa using hlt, fun _ => rfl⟩, .inl rfl⟩
  | commit hms =>
    cases hd
    exact ⟨⟨_, _, hms, by simp, by simp⟩, .inr (hms.lt (by simp))⟩
  | inside hm hms =>
    obtain ⟨hsame, hack⟩ := decode_ack hd hm
    refine ⟨⟨_, _, hms, hlo, fun hc => hsame.trans (hin hc)⟩, ?_⟩
    rcases hack with hz | ⟨hout, -⟩
    · exact .inl hz
    · exact absurd (hin rfl) (by simp [hout])
  | keepalive hms =>
    obtain ⟨-, hack⟩ := decode_ack hd rfl
    refine ⟨⟨_, _, hms, by simp, by simp⟩, ?_⟩
    rcases hack with hz | ⟨-, reply, heq⟩
    · exact .inl hz
    · cases heq
      refine .inr fun m' hm' e he => Nat.lt_of_le_of_lt (Nat.le_max_right lo _) (hms.lt (by simp) m' hm' e he)
  | outside hm hk hms =>
    obtain ⟨-, hack⟩ := decode_ack hd hm
    refine ⟨⟨_, _, hms, by simp, by simp⟩, ?_⟩
    rcases hack with hz | ⟨-, reply, heq⟩
    · exact .inl hz
    · dsimp only at heq
      rw [heq] at hk
      cases hk

/-! ## Coverage -/

/-- The events of the units handled so far. -/
def handledEvents (log : List (Entry V)) : List (Event V) :=
  log.flatMap fun
    | .handled d => d.events
    | _ => []

/-- The positions reported so far. -/
def reports (log : List (Entry V)) : List LSN :=
  log.filterMap fun
    | .reported lsn => some lsn
    | _ => none

/-- Every message of a transaction that ends at or before `lsn` was decoded, and
all its events are in `events`. -/
def Covered (stream : List Sent) (log : List (Entry V)) (events : List (Event V)) (lsn : LSN) : Prop :=
  ∀ k m e, stream[k]? = some m → m.txn = some e → e ≤ lsn →
    ∃ decoded, .decoded k decoded ∈ log ∧ ∀ ev ∈ decoded, ev ∈ events

/-- Events on their way to the handler, with the position that may be confirmed
once they and everything before them are handled. -/
abbrev Segment (V : Type) := List (Event V) × LSN

/-- Each position is covered by what is before it and with it. -/
def Chain (stream : List Sent) (log : List (Entry V)) : List (Event V) → List (Segment V) → Prop
  | _, [] => True
  | before, (events, lsn) :: rest =>
    Covered stream log (before ++ events) lsn ∧ Chain stream log (before ++ events) rest

def Delivery.segment (d : Delivery V) : Segment V := (d.events, d.ack)

def Task.segment : Task V → Segment V
  | .append e => ([e], 0)
  | .ack lsn => ([], lsn)
  | .handleWatermark _ _ => ([], 0)
  | .reply => ([], 0)

/-- The units handed over and not finished. -/
def Session.handedOver (s : Session V) : List (Segment V) := (s.worker.units ++ s.queue).map Delivery.segment

/-- Everything between the decoder and the handler, in order. -/
def Session.segments (s : Session V) : List (Segment V) :=
  s.handedOver ++ (s.batch, s.pendingAck) :: (s.sending.map Delivery.segment ++ s.work.map Task.segment)

/-- The events of segments. -/
def eventsOf (segs : List (Segment V)) : List (Event V) := segs.flatMap (·.1)

/-- The unit the delivery goroutine has handled and not finished. -/
def Worker.handled : Worker V → List (Delivery V)
  | .marking d | .loading d | .storing d | .finishing d => [d]
  | _ => []

structure Coverage (stream : List Sent) (s : Session V) : Prop where
  client : Covered stream s.log (handledEvents s.log) s.clientLSN
  chain : Chain stream s.log (handledEvents s.log) s.segments
  /-- No decoded event is lost. -/
  flow : ∀ k events, .decoded k events ∈ s.log → ∀ ev ∈ events,
    ev ∈ handledEvents s.log ++ eventsOf s.segments
  decoded : ∀ k < s.received, ∃ events, .decoded k events ∈ s.log
  rest : ∃ lo cur, Served lo cur (stream.drop s.received) ∧ (∀ e ∈ cur, lo < e) ∧
    (cur.isSome = true → s.decoder.txn.inTxn = true)
  confirmed : ∀ lsn, s.confirming = some (.load lsn) ∨ s.confirming = some (.store lsn) →
    Covered stream s.log (handledEvents s.log) lsn
  worked : ∀ d ∈ s.worker.handled, ∀ ev ∈ d.events, ev ∈ handledEvents s.log

variable {stream : List Sent} {log log' : List (Entry V)} {s s' : Session V} {a : StreamAct V} {cfg : Config V}

theorem Covered.mono {events events' : List (Event V)} {lsn : LSN}
    (h : Covered stream log events lsn) (hlog : log ⊆ log') (hev : events ⊆ events') :
    Covered stream log' events' lsn := by
  intro k m e hm he hle
  obtain ⟨decoded, hd, hall⟩ := h k m e hm he hle
  exact ⟨decoded, hlog hd, fun ev hmem => hev (hall ev hmem)⟩

theorem Chain.mono (hlog : log ⊆ log') :
    ∀ {segs : List (Segment V)} {before before' : List (Event V)}, Chain stream log before segs → before ⊆ before' →
      Chain stream log' before' segs
  | [], _, _, _, _ => trivial
  | (_, _) :: _, _, _, h, hb =>
    have hsub := List.append_subset.mpr ⟨fun _ hx => List.mem_append_left _ (hb hx), List.subset_append_right _ _⟩
    ⟨h.1.mono hlog hsub, Chain.mono hlog h.2 hsub⟩

theorem chain_append {before : List (Event V)} {a b : List (Segment V)} :
    Chain stream log before (a ++ b) ↔ Chain stream log before a ∧ Chain stream log (before ++ eventsOf a) b := by
  induction a generalizing before with
  | nil => simp [Chain, eventsOf]
  | cons x a ih => simp [Chain, ih, and_assoc, eventsOf]

@[simp] theorem eventsOf_append (a b : List (Segment V)) : eventsOf (a ++ b) = eventsOf a ++ eventsOf b := by
  simp [eventsOf]

@[simp] theorem eventsOf_cons (x : Segment V) (b : List (Segment V)) : eventsOf (x :: b) = x.1 ++ eventsOf b := rfl

@[simp] theorem eventsOf_nil : eventsOf ([] : List (Segment V)) = [] := rfl

theorem chain_segments {before : List (Event V)} :
    Chain stream log before s.segments ↔ Chain stream log before s.handedOver ∧
      Covered stream log (before ++ eventsOf s.handedOver ++ s.batch) s.pendingAck ∧
      Chain stream log (before ++ eventsOf s.handedOver ++ s.batch)
        (s.sending.map Delivery.segment ++ s.work.map Task.segment) := by
  rw [Session.segments, chain_append, Chain]

/-! ## Moving events along -/

@[simp] theorem handledEvents_append (a b : List (Entry V)) :
    handledEvents (a ++ b) = handledEvents a ++ handledEvents b := by
  simp [handledEvents]

theorem handledEvents_subset_append (a b : List (Entry V)) : handledEvents a ⊆ handledEvents (a ++ b) := by
  rw [handledEvents_append]
  exact List.subset_append_left _ _

section Steps

variable {stream : List Sent} {s s' : Session V}

/-- A step that receives nothing keeps coverage when the positions still wait
behind what they vouch for and no event is lost. -/
theorem Coverage.move (h : Coverage stream s) (new : List (Entry V)) (hlog : s'.log = s.log ++ new)
    (hnew : ∀ k events, .decoded k events ∉ new) (hrec : s'.received = s.received) (hdec : s'.decoder = s.decoder)
    (hclient : Covered stream s'.log (handledEvents s'.log) s'.clientLSN)
    (hchain : Chain stream s'.log (handledEvents s'.log) s'.segments)
    (hflow : ∀ ev, ev ∈ handledEvents s.log ++ eventsOf s.segments →
      ev ∈ handledEvents s'.log ++ eventsOf s'.segments)
    (hconf : ∀ lsn, s'.confirming = some (.load lsn) ∨ s'.confirming = some (.store lsn) →
      Covered stream s'.log (handledEvents s'.log) lsn)
    (hworked : ∀ d ∈ s'.worker.handled, ∀ ev ∈ d.events, ev ∈ handledEvents s'.log) : Coverage stream s' where
  client := hclient
  chain := hchain
  flow k events hd ev hev := by
    rw [hlog, List.mem_append] at hd
    exact hflow ev (h.flow k events (hd.resolve_right (hnew k events)) ev hev)
  decoded k hk := by
    obtain ⟨events, hd⟩ := h.decoded k (hrec ▸ hk)
    exact ⟨events, hlog ▸ List.mem_append_left _ hd⟩
  rest := by rw [hrec, hdec]; exact h.rest
  confirmed := hconf
  worked := hworked

/-- The entry neither decodes nor handles anything. -/
def Entry.quiet : Entry V → Bool
  | .decoded _ _ | .handled _ => false
  | _ => true

theorem handledEvents_quiet {log new : List (Entry V)} (hnew : ∀ x ∈ new, x.quiet = true) :
    handledEvents (log ++ new) = handledEvents log := by
  have hnil : handledEvents new = [] := by
    rw [handledEvents, List.flatMap_eq_nil_iff]
    intro x hx
    have hq := hnew x hx
    cases x <;> first | rfl | cases hq
  rw [handledEvents_append, hnil, List.append_nil]

/-- A step that only regroups the events on their way. -/
theorem Coverage.regroup (h : Coverage stream s) (new : List (Entry V)) (hlog : s'.log = s.log ++ new)
    (hnew : ∀ x ∈ new, x.quiet = true) (hrec : s'.received = s.received) (hdec : s'.decoder = s.decoder)
    (hclient : s'.clientLSN = s.clientLSN) (hconf : s'.confirming = s.confirming)
    (hworker : s'.worker.handled = s.worker.handled)
    (hchain : Chain stream s.log (handledEvents s.log) s.segments → Chain stream s.log (handledEvents s.log) s'.segments)
    (hflow : eventsOf s.segments ⊆ eventsOf s'.segments) : Coverage stream s' := by
  have hsub : s.log ⊆ s'.log := by rw [hlog]; exact List.subset_append_left _ _
  have hhandled : handledEvents s'.log = handledEvents s.log := by rw [hlog, handledEvents_quiet hnew]
  refine h.move new hlog (fun k events hmem => ?_) hrec hdec ?_ ?_ ?_ ?_ ?_
  · have hq := hnew _ hmem
    cases hq
  · rw [hhandled, hclient]; exact h.client.mono hsub (List.Subset.refl _)
  · rw [hhandled]; exact (hchain h.chain).mono hsub (List.Subset.refl _)
  · intro ev hev
    rw [hhandled]
    rcases List.mem_append.mp hev with hev | hev
    · exact List.mem_append_left _ hev
    · exact List.mem_append_right _ (hflow hev)
  · rw [hhandled, hconf]; exact fun lsn hl => (h.confirmed lsn hl).mono hsub (List.Subset.refl _)
  · rw [hhandled, hworker]; exact h.worked

theorem Coverage.report (h : Coverage stream s) : Coverage stream s.report :=
  h.regroup [.reported s.clientLSN] rfl (by simp [Entry.quiet]) rfl rfl rfl rfl rfl id (List.Subset.refl _)

variable (hpos : ∀ m ∈ stream, ∀ e ∈ m.txn, 0 < e)

include hpos in
theorem covered_zero (log : List (Entry V)) (events : List (Event V)) : Covered stream log events 0 := by
  intro k m e hm he hle
  exact absurd (hpos m (List.mem_of_getElem? hm) e he) (Nat.not_lt.mpr hle)

include hpos in
theorem Coverage.flush (h : Coverage stream s) (hs : s.sending = []) : Coverage stream s.flush := by
  unfold Session.flush
  split
  · exact h
  · refine h.regroup [] (by simp) (by simp) rfl rfl rfl rfl rfl (fun hchain => ?_) ?_
    · rw [chain_segments, hs] at hchain
      rw [chain_segments]
      refine ⟨hchain.1, covered_zero hpos _ _, ?_⟩
      rw [List.append_nil]
      exact hchain.2
    · simp [Session.segments, Session.handedOver, hs, Delivery.segment]

include hpos in
theorem Coverage.appendEvent (h : Coverage stream s) (hs : s.sending = []) {e : Event V} {ts : List (Task V)}
    (hwork : s.work = .append e :: ts) (maxBatch : ℕ) :
    Coverage stream (Session.appendEvent maxBatch { s with work := ts } e) := by
  have happ : Coverage stream { s with work := ts, batch := s.batch ++ [e] } := by
    refine h.regroup [] (by simp) (by simp) rfl rfl rfl rfl rfl (fun hchain => ?_) ?_
    · rw [chain_segments, hs, hwork] at hchain
      rw [chain_segments, hs]
      obtain ⟨hpre, hack, -, hrest⟩ := hchain
      refine ⟨hpre, hack.mono (List.Subset.refl _) ?_, ?_⟩
      · rw [← List.append_assoc]; exact List.subset_append_left _ _
      · rw [← List.append_assoc]; exact hrest
    · simp [Session.segments, Session.handedOver, hs, hwork, Task.segment]
  unfold Session.appendEvent
  dsimp only
  split
  · exact happ.flush hpos hs
  · exact happ

include hpos in
theorem Coverage.confirmStep (h : Coverage stream s) {c : Confirming} (hc : s.confirming = some c) :
    Coverage stream (Wal.confirmStep s c) := by
  cases c with
  | load lsn =>
    have hcov := h.confirmed lsn (.inl hc)
    refine { h with confirmed := fun l hl => ?_ }
    simp only [Wal.confirmStep] at hl
    split at hl
    · rcases hl with hl | hl <;> cases hl; exact hcov
    · rcases hl with hl | hl <;> cases hl
  | store lsn =>
    refine { h with client := h.confirmed lsn (.inr hc), confirmed := fun l hl => ?_ }
    rcases hl with hl | hl <;> cases hl
  | reset =>
    refine h.move [] (by simp [Wal.confirmStep]) (by simp) rfl rfl h.client ?_ ?_ ?_ h.worked
    · have hchain := chain_segments.mp h.chain
      exact chain_segments.mpr ⟨hchain.1, covered_zero hpos _ _, hchain.2.2⟩
    · intro ev hev
      simpa [Wal.confirmStep, Session.segments, Session.handedOver] using hev
    · rintro l (hl | hl) <;> cases hl

variable {a : StreamAct V} {cfg : Config V}

theorem Coverage.sendStep (h : Coverage stream s) (hctl : Control s) {d : Delivery V} {ds : List (Delivery V)}
    (hs : s.sending = d :: ds) (ha : Wal.sendStep s d ds a = some s') (hrun : s'.phase = .running) :
    Coverage stream s' := by
  have hb : s.batch = [] := hctl.sending (by simp [hs])
  cases a with
  | go =>
    simp only [Wal.sendStep] at ha
    split at ha
    · split at ha
      · cases ha
        refine h.regroup [.enqueued d] rfl (by simp [Entry.quiet]) rfl rfl rfl rfl rfl (fun hchain => ?_) ?_
        · rw [chain_segments, hs, hb] at hchain
          have hover : Session.handedOver { s with queue := s.queue ++ [d], sending := ds, added := false,
                                                   log := s.log ++ [Entry.enqueued d] } = s.handedOver ++ [d.segment] := by
            simp [Session.handedOver]
          rw [chain_segments, hover, chain_append]
          simp only [hb, List.append_nil, List.map_cons, List.cons_append, eventsOf_append, eventsOf_cons, eventsOf_nil,
            Delivery.segment, Chain] at hchain ⊢
          obtain ⟨hpre, hack, hd, hrest⟩ := hchain
          rw [← List.append_assoc]
          exact ⟨⟨hpre, hd, trivial⟩, hack.mono (List.Subset.refl _) (List.subset_append_left _ _), hrest⟩
        · simp [Session.segments, Session.handedOver, hs, hb, Delivery.segment]
      · cases ha
    · cases ha
      exact { h with }
  | keepalive =>
    simp only [Wal.sendStep] at ha
    split at ha
    · cases ha; exact h.report
    · cases ha
  | stop =>
    simp only [Wal.sendStep] at ha
    split at ha
    · cases ha; cases hrun
    · cases ha
  | skip => cases ha
  | rows rows => cases ha

/-- The units of a watermark's rows confirm nothing. -/
theorem watermarkUnits_ack {maxBatch : ℕ} {w : Watermark V} :
    ∀ (fuel : ℕ) (rows : List (Event V)), ∀ d ∈ Session.watermarkUnits maxBatch w fuel rows, d.ack = 0
  | 0, rows => by simp [Session.watermarkUnits]
  | fuel + 1, rows => by
    unfold Session.watermarkUnits
    split
    · simp
    · simpa using watermarkUnits_ack fuel (rows.drop maxBatch)

include hpos in
theorem chain_zero (log : List (Entry V)) : ∀ (segs : List (Segment V)) (before : List (Event V)),
    (∀ x ∈ segs, x.2 = 0) → Chain stream log before segs
  | [], _, _ => trivial
  | (events, lsn) :: segs, before, h => by
    have hzero : lsn = 0 := h (events, lsn) (by simp)
    exact ⟨hzero ▸ covered_zero hpos _ _, chain_zero log segs _ fun x hx => h x (by simp [hx])⟩

include hpos in
theorem Coverage.workStep (h : Coverage stream s) {t : Task V} {ts : List (Task V)}
    (hs : s.sending = []) (hwork : s.work = t :: ts) (ha : Wal.workStep cfg s t ts a = some s')
    (hrun : s'.phase = .running) : Coverage stream s' := by
  have hchain := chain_segments.mp h.chain
  rw [hs, hwork] at hchain
  cases a with
  | go =>
    cases t with
    | append e => cases ha; exact h.appendEvent hpos hs hwork _
    | handleWatermark k content =>
      simp only [Wal.workStep] at ha
      split at ha
      · cases ha
      · cases ha; exact h.flush hpos hs
    | ack lsn =>
      cases ha
      obtain ⟨hpre, hpend, hlsn, hrest⟩ := hchain
      rw [List.append_nil] at hlsn hrest
      refine h.regroup [] (by simp) (by simp) rfl rfl rfl rfl rfl (fun _ => ?_) ?_
      · rw [chain_segments, hs]
        refine ⟨hpre, ?_, hrest⟩
        dsimp only
        split
        · exact hlsn
        · exact hpend
      · simp [Session.segments, Session.handedOver, hs, hwork, Task.segment]
    | reply => cases ha
  | rows rows =>
    cases t with
    | handleWatermark k content =>
      simp only [Wal.workStep] at ha
      split at ha
      · next hb =>
        cases ha
        obtain ⟨hpre, hpend, -, hrest⟩ := hchain
        refine h.regroup [] (by simp) (by simp) rfl rfl rfl rfl rfl (fun _ => ?_) ?_
        · rw [chain_segments, chain_append]
          refine ⟨hpre, hpend, chain_zero hpos _ _ _ ?_, hrest.mono (List.Subset.refl _) ?_⟩
          · intro x hx
            obtain ⟨d, hd, rfl⟩ := List.mem_map.mp hx
            exact watermarkUnits_ack _ _ d hd
          · rw [List.append_nil]; exact List.subset_append_left _ _
        · intro ev hev
          simp only [Session.segments, Session.handedOver, hs, hwork, List.map_nil, List.nil_append, List.map_cons,
            Task.segment, eventsOf_append, eventsOf_cons, List.mem_append] at hev ⊢
          rcases hev with hev | hev | hev
          · exact .inl hev
          · exact .inr (.inl hev)
          · exact .inr (.inr (.inr hev))
      · cases ha
    | append | ack | reply => cases ha
  | keepalive =>
    cases t with
    | reply =>
      cases ha
      refine Coverage.report (h.regroup [] (by simp) (by simp) rfl rfl rfl rfl rfl (fun _ => ?_) ?_)
      · rw [chain_segments, hs]
        obtain ⟨hpre, hpend, -, hrest⟩ := hchain
        rw [List.append_nil] at hrest
        exact ⟨hpre, hpend, hrest⟩
      · simp [Session.segments, Session.handedOver, hs, hwork, Task.segment]
    | append | ack | handleWatermark => cases ha
  | stop =>
    cases t with
    | reply => cases ha; cases hrun
    | append | ack | handleWatermark => cases ha
  | skip => cases ha

theorem watermarkTasks_segment (cfg : Config V) (k : ℕ) (msg : Option LogicalMessage) :
    ∀ t ∈ Session.watermarkTasks cfg k msg, t.segment = ([], 0) := by
  unfold Session.watermarkTasks
  split
  · split
    · simp [Task.segment]
    · simp
  · simp

theorem eventsOf_eq_nil {segs : List (Segment V)} (h : ∀ x ∈ segs, x.1 = []) : eventsOf segs = [] :=
  List.flatMap_eq_nil_iff.mpr h

theorem eventsOf_appends (events : List (Event V)) : eventsOf ((events.map Task.append).map Task.segment) = events := by
  induction events with
  | nil => rfl
  | cons e events ih =>
    simp only [List.map_cons, eventsOf_cons, ih]
    rfl

/-- The work of a message carries its events. -/
theorem eventsOf_messageTasks (cfg : Config V) (k : ℕ) (result : DecodeResult V) :
    eventsOf ((Session.messageTasks cfg k result).map Task.segment) = tag (.wal k) result.events := by
  have hmark : eventsOf ((Session.watermarkTasks cfg k result.message).map Task.segment) = [] := by
    refine eventsOf_eq_nil fun x hx => ?_
    obtain ⟨t, ht, rfl⟩ := List.mem_map.mp hx
    rw [watermarkTasks_segment cfg k _ t ht]
  have hreply : eventsOf ((if result.requestReply then [Task.reply] else []).map Task.segment) =
      ([] : List (Event V)) := by split <;> rfl
  simp only [Session.messageTasks, List.map_append, eventsOf_append, eventsOf_appends, hmark, hreply, List.append_nil]
  simp [Task.segment]

include hpos in
/-- Its position waits behind them. -/
theorem chain_messageTasks {log : List (Entry V)} {before : List (Event V)} (cfg : Config V) (k : ℕ)
    {result : DecodeResult V} (h : Covered stream log (before ++ tag (.wal k) result.events) result.ackLSN) :
    Chain stream log before ((Session.messageTasks cfg k result).map Task.segment) := by
  simp only [Session.messageTasks, List.map_append, chain_append, eventsOf_append, eventsOf_appends]
  refine ⟨⟨⟨chain_zero hpos _ _ _ ?_, chain_zero hpos _ _ _ ?_⟩, ?_, trivial⟩, chain_zero hpos _ _ _ ?_⟩
  · intro x hx
    obtain ⟨t, ht, rfl⟩ := List.mem_map.mp hx
    obtain ⟨e, -, rfl⟩ := List.mem_map.mp ht
    rfl
  · intro x hx
    obtain ⟨t, ht, rfl⟩ := List.mem_map.mp hx
    rw [watermarkTasks_segment cfg k _ t ht]
  · refine h.mono (List.Subset.refl _) ?_
    simp only [← List.append_assoc]
    exact fun x hx => List.mem_append_left _ (List.mem_append_left _ hx)
  · intro x hx
    obtain ⟨t, ht, rfl⟩ := List.mem_map.mp hx
    split at ht
    · rw [List.mem_singleton.mp ht]; rfl
    · cases ht

include hpos in
theorem Coverage.receive (h : Coverage stream s) (hs : s.sending = []) (hwork : s.work = [])
    {m : Sent} (hm : stream[s.received]? = some m) {result : DecodeResult V} {decoder : Decoder}
    (hd : s.decoder.decode cfg.typeMap m.msg = .ok (result, decoder)) :
    Coverage stream { s with
      received := s.received + 1, pc := .check, decoder, work := Session.messageTasks cfg s.received result,
      log := s.log ++ [Entry.decoded s.received (tag (.wal s.received) result.events)] } := by
  obtain ⟨lo, cur, hserved, hlo, hin⟩ := h.rest
  obtain ⟨hlt, hget⟩ := List.getElem?_eq_some_iff.mp hm
  rw [List.drop_eq_getElem_cons hlt, hget] at hserved
  obtain ⟨hrest, hack⟩ := hserved.decode hlo hin hd
  have hsub : s.log ⊆ s.log ++ [Entry.decoded s.received (tag (.wal s.received) result.events)] :=
    List.subset_append_left _ _
  have hhandled : handledEvents (s.log ++ [Entry.decoded s.received (tag (.wal s.received) result.events)]) =
      handledEvents s.log := by simp [handledEvents]
  obtain ⟨hover, hpend, -⟩ := chain_segments.mp h.chain
  have hflow : ∀ k events, .decoded k events ∈ s.log → ∀ ev ∈ events,
      ev ∈ handledEvents s.log ++ eventsOf s.handedOver ++ s.batch := by
    intro k events hmem ev hev
    have hold := h.flow k events hmem ev hev
    simpa [Session.segments, hs, hwork] using hold
  -- What is acknowledged was decoded before, or is this message's own.
  have hcov : Covered stream (s.log ++ [Entry.decoded s.received (tag (.wal s.received) result.events)])
      (handledEvents s.log ++ eventsOf s.handedOver ++ s.batch ++ tag (.wal s.received) result.events)
      result.ackLSN := by
    rcases hack with hz | hlater
    · rw [hz]; exact covered_zero hpos _ _
    · intro k m' e hk he hle
      rcases Nat.lt_trichotomy k s.received with hlt' | rfl | hgt
      · obtain ⟨events, hdec⟩ := h.decoded k hlt'
        exact ⟨events, hsub hdec, fun ev hev => List.mem_append_left _ (hflow k events hdec ev hev)⟩
      · exact ⟨_, List.mem_append_right _ (List.mem_singleton.mpr rfl), fun ev hev => List.mem_append_right _ hev⟩
      · have hmem : m' ∈ stream.drop (s.received + 1) := by
          rw [List.mem_iff_getElem?]
          exact ⟨k - (s.received + 1), by rw [List.getElem?_drop, ← hk]; congr 1; omega⟩
        exact absurd hle (Nat.not_le.mpr (hlater m' hmem e he))
  refine { client := ?_, chain := ?_, flow := ?_, decoded := ?_, rest := hrest, confirmed := ?_, worked := ?_ }
  · rw [hhandled]; exact h.client.mono hsub (List.Subset.refl _)
  · rw [hhandled, chain_segments, hs]
    exact ⟨hover.mono hsub (List.Subset.refl _), hpend.mono hsub (List.Subset.refl _),
      chain_messageTasks hpos cfg s.received hcov⟩
  · intro k events hmem ev hev
    rw [hhandled, Session.segments, hs]
    simp only [List.map_nil, List.nil_append, eventsOf_append, eventsOf_cons, eventsOf_messageTasks]
    rcases List.mem_append.mp hmem with hmem | hmem
    · have hold := hflow k events hmem ev hev
      simp only [List.mem_append] at hold ⊢
      rcases hold with (hold | hold) | hold
      · exact .inl hold
      · exact .inr (.inl hold)
      · exact .inr (.inr (.inl hold))
    · cases List.mem_singleton.mp hmem
      simp only [List.mem_append]
      exact .inr (.inr (.inr hev))
  · intro k hk
    rcases Nat.lt_succ_iff_lt_or_eq.mp hk with hk | rfl
    · obtain ⟨events, hdec⟩ := h.decoded k hk
      exact ⟨events, hsub hdec⟩
    · exact ⟨_, List.mem_append_right _ (List.mem_singleton.mpr rfl)⟩
  · rw [hhandled]; exact fun lsn hl => (h.confirmed lsn hl).mono hsub (List.Subset.refl _)
  · rw [hhandled]; exact h.worked

include hpos in
theorem Coverage.loopStep (h : Coverage stream s) (hctl : Control s) {pc : LoopPoint}
    (hc : s.confirming = none) (hs : s.sending = []) (hwork : s.work = [])
    (ha : Wal.loopStep cfg (stream.map (·.msg)) s pc a = some s') (hrun : s'.phase = .running) : Coverage stream s' := by
  have hctl' := hctl.loopStep hc hs ha hrun
  unfold Wal.loopStep at ha
  split at ha
  · split at ha
    · cases ha
    · cases ha; exact { h with }
  · cases ha; cases hrun
  · cases ha
    exact Coverage.flush (s := { s with pc := .idle }) hpos { h with } hs
  · cases ha; exact { h with }
  · split at ha
    · cases ha
      obtain ⟨hw, hq, -, hb⟩ := hctl'.confirming (by simp)
      have hover : s.handedOver = [] := by
        change s.worker = .idle at hw
        change s.queue = [] at hq
        rw [Session.handedOver, hw, hq]
        rfl
      refine { h with confirmed := ?_ }
      rintro lsn (hl | hl) <;> cases hl
      have hpend := (chain_segments.mp h.chain).2.1
      change s.batch = [] at hb
      rw [hover, hb] at hpend
      simpa using hpend
    · cases ha; exact { h with }
  · cases ha; exact Coverage.report (s := { s with pc := .receive }) { h with }
  · cases ha; exact { h with }
  · cases ha; cases hrun
  · rw [List.getElem?_map] at ha
    obtain ⟨m, hm, rfl⟩ := Option.map_eq_some_iff.mp ha
    obtain ⟨sent, hsent, rfl⟩ := Option.map_eq_some_iff.mp hm
    rcases receiveStep_cases cfg s sent.msg with hdrain | ⟨result, decoder, hd, heq⟩
    · rw [hdrain] at hrun; cases hrun
    · rw [heq]; exact h.receive hpos hs hwork hsent hd
  · cases ha; exact { h with }
  · cases ha; cases hrun
  · cases ha

/-- The delivery goroutine moves on with its unit. -/
theorem Coverage.withWorker (h : Coverage stream s) {w : Worker V} (hunits : w.units = s.worker.units)
    (hhandled : ∀ d ∈ w.handled, ∀ ev ∈ d.events, ev ∈ handledEvents s.log) :
    Coverage stream { s with worker := w } := by
  have hsegs : Session.segments { s with worker := w } = s.segments := by
    simp [Session.segments, Session.handedOver, hunits]
  exact { h with
    chain := by rw [hsegs]; exact h.chain
    flow := by rw [hsegs]; exact h.flow
    worked := hhandled }

/-- A unit is handled: its events count from now on. -/
theorem Coverage.handle (h : Coverage stream s) {d : Delivery V} {queue : List (Delivery V)} {w : Worker V}
    (hover : w.units ++ queue = s.worker.units ++ s.queue) (hw : w.handled = [d]) :
    Coverage stream { s with queue, worker := w, log := s.log ++ [Entry.handled d] } := by
  have hsub : s.log ⊆ s.log ++ [Entry.handled d] := List.subset_append_left _ _
  have hgrow := handledEvents_subset_append s.log [.handled d]
  have hsegs : Session.segments { s with queue, worker := w, log := s.log ++ [Entry.handled d] } = s.segments := by
    simp [Session.segments, Session.handedOver, hover]
  refine h.move [.handled d] rfl (by simp) rfl rfl (h.client.mono hsub hgrow) ?_ ?_ ?_ ?_
  · rw [hsegs]; exact h.chain.mono hsub hgrow
  · rw [hsegs]
    intro ev hev
    rcases List.mem_append.mp hev with hev | hev
    · exact List.mem_append_left _ (hgrow hev)
    · exact List.mem_append_right _ hev
  · exact fun lsn hl => (h.confirmed lsn hl).mono hsub hgrow
  · intro d' hd' ev hev
    change d' ∈ w.handled at hd'
    rw [hw, List.mem_singleton] at hd'
    subst hd'
    simp [handledEvents, hev]

theorem Coverage.deliveryStep (h : Coverage stream s) (hctl : Control s) {ok : Bool}
    (ha : Wal.deliveryStep s ok = some s') : Coverage stream s' := by
  cases hw : s.worker with
  | idle =>
    simp only [Wal.deliveryStep, hw] at ha
    cases hq : s.queue with
    | nil => simp [hq, hctl.queueOpen] at ha
    | cons d queue =>
      simp only [hq] at ha
      split at ha <;> cases ha
      · exact h.handle (by simp [hw, hq, Worker.units]) rfl
      · have hsegs : ∀ log, Session.segments { s with queue, worker := .handling d, log } = s.segments := by
          simp [Session.segments, Session.handedOver, Worker.units, hw, hq]
        refine h.regroup [.handed d] rfl (by simp [Entry.quiet]) rfl rfl rfl rfl (by simp [hw, Worker.handled]) ?_ ?_
        · rw [hsegs]; exact id
        · rw [hsegs]; exact List.Subset.refl _
  | handling d =>
    simp only [Wal.deliveryStep, hw] at ha
    split at ha <;> cases ha
    · exact h.handle (by simp [hw, Worker.units]) rfl
    · exact { h.withWorker (w := .failed d) (by simp [hw, Worker.units]) (by simp [Worker.handled]) with }
  | marking d =>
    simp only [Wal.deliveryStep, hw] at ha
    cases ha
    have hsegs : ∀ log, Session.segments { s with worker := .loading d, log } = s.segments := by
      simp [Session.segments, Session.handedOver, Worker.units, hw]
    refine h.regroup _ rfl ?_ rfl rfl rfl rfl (by simp [hw, Worker.handled]) ?_ ?_
    · cases d.watermark <;> simp [Entry.quiet]
    · rw [hsegs]; exact id
    · rw [hsegs]; exact List.Subset.refl _
  | loading d =>
    have hd := h.worked d (by simp [hw, Worker.handled])
    simp only [Wal.deliveryStep, hw] at ha
    split at ha <;> cases ha
    · exact h.withWorker (by simp [hw, Worker.units]) (by simpa [Worker.handled] using hd)
    · exact h.withWorker (by simp [hw, Worker.units]) (by simpa [Worker.handled] using hd)
  | storing d =>
    have hd := h.worked d (by simp [hw, Worker.handled])
    simp only [Wal.deliveryStep, hw] at ha
    cases ha
    have hnext := h.withWorker (w := .finishing d) (by simp [hw, Worker.units]) (by simpa [Worker.handled] using hd)
    have hover := (chain_segments.mp h.chain).1
    rw [Session.handedOver, hw] at hover
    refine { hnext with client := hover.1.mono (List.Subset.refl _) (List.append_subset.mpr ⟨List.Subset.refl _, hd⟩) }
  | finishing d =>
    have hd := h.worked d (by simp [hw, Worker.handled])
    simp only [Wal.deliveryStep, hw] at ha
    cases ha
    have hsegs : s.segments = d.segment ::
        Session.segments { s with worker := .idle, outstanding := s.outstanding - 1 } := by
      simp [Session.segments, Session.handedOver, Worker.units, hw]
    have hchain := h.chain
    rw [hsegs] at hchain
    refine h.move [] (by simp) (by simp) rfl rfl h.client ?_ ?_ h.confirmed (by simp [Worker.handled])
    · exact Chain.mono (List.Subset.refl _) hchain.2 (List.append_subset.mpr ⟨List.Subset.refl _, hd⟩)
    · intro ev hev
      rw [hsegs, eventsOf_cons] at hev
      simp only [List.mem_append] at hev ⊢
      rcases hev with hev | hev | hev
      · exact .inl hev
      · exact .inl (hd ev hev)
      · exact .inr hev
  | failed d => simp [Wal.deliveryStep, hw] at ha
  | returned => exact absurd hw hctl.alive

include hpos in
theorem Coverage.streamStep (h : Coverage stream s) (hctl : Control s) (hrun : s.phase = .running)
    (ha : Wal.streamStep cfg (stream.map (·.msg)) s a = some s') (hrun' : s'.phase = .running) :
    Coverage stream s' := by
  simp only [Wal.streamStep, hrun, if_true] at ha
  split at ha
  · next c hp => cases ha; exact h.confirmStep hpos (Session.point_confirming hp)
  · next d ds hp => exact h.sendStep hctl (Session.point_sending hp).2 ha hrun'
  · next t ts hp =>
    obtain ⟨-, hs, hwork⟩ := Session.point_working hp
    exact h.workStep hpos hs hwork ha hrun'
  · next pc hp =>
    obtain ⟨hc, hs, hwork, -⟩ := Session.point_loop hp
    exact h.loopStep hpos hctl hc hs hwork ha hrun'

end Steps

/-! ## Reports -/

/-- A report covers what it should, at the time it is made. -/
def SafeReport (stream : List Sent) (pre : List (Entry V)) (x : Entry V) : Prop :=
  ∀ lsn, x = .reported lsn → Covered stream pre (handledEvents pre) lsn

/-- What is added to a log: nothing, or an entry that is no report. -/
def Unreported (log log' : List (Entry V)) : Prop :=
  log' = log ∨ ∃ x, log' = log ++ [x] ∧ ∀ lsn, x ≠ Entry.reported lsn

/-- What a step of the loop outside `confirm` does to the position and the log:
it reports the position, or nothing. -/
def Reporting (s s' : Session V) : Prop :=
  s'.clientLSN = s.clientLSN ∧ (Unreported s.log s'.log ∨ s'.log = s.log ++ [Entry.reported s.clientLSN])

theorem Session.flush_reporting (s : Session V) : Reporting s s.flush := by
  unfold Session.flush
  split <;> exact ⟨rfl, .inl (.inl rfl)⟩

theorem Session.appendEvent_reporting (s : Session V) (maxBatch : ℕ) (e : Event V) :
    Reporting s (s.appendEvent maxBatch e) := by
  unfold Session.appendEvent
  dsimp only
  split
  · exact Session.flush_reporting { s with batch := s.batch ++ [e] }
  · exact ⟨rfl, .inl (.inl rfl)⟩

theorem sendStep_reporting {d : Delivery V} {ds : List (Delivery V)}
    (ha : sendStep s d ds a = some s') : Reporting s s' := by
  unfold sendStep at ha
  split at ha
  · split at ha
    · split at ha
      · cases ha; exact ⟨rfl, .inl (.inr ⟨_, rfl, by simp⟩)⟩
      · cases ha
    · cases ha; exact ⟨rfl, .inl (.inl rfl)⟩
  · split at ha
    · cases ha; exact ⟨rfl, .inr rfl⟩
    · cases ha
  · split at ha
    · cases ha; exact ⟨rfl, .inl (.inl rfl)⟩
    · cases ha
  · cases ha

theorem workStep_reporting {t : Task V} {ts : List (Task V)}
    (ha : workStep cfg s t ts a = some s') : Reporting s s' := by
  unfold workStep at ha
  split at ha
  · split at ha
    · cases ha; exact Session.appendEvent_reporting { s with work := ts } _ _
    · split at ha
      · cases ha
      · cases ha; exact Session.flush_reporting s
    · cases ha; exact ⟨rfl, .inl (.inl rfl)⟩
    · cases ha
  · split at ha
    · dsimp only at ha
      split at ha
      · cases ha; exact ⟨rfl, .inl (.inl rfl)⟩
      · cases ha
    · cases ha
  · split at ha
    · cases ha; exact ⟨rfl, .inr rfl⟩
    · cases ha
  · split at ha
    · cases ha; exact ⟨rfl, .inr rfl⟩
    · cases ha
  · cases ha

theorem receiveStep_reporting (cfg : Config V) (s : Session V) (m : BackendMessage) : Reporting s (receiveStep cfg s m) := by
  unfold receiveStep
  dsimp only
  split
  · exact ⟨rfl, .inl (.inl rfl)⟩
  · split
    · exact ⟨rfl, .inl (.inl rfl)⟩
    · exact ⟨rfl, .inl (.inr ⟨_, rfl, by simp⟩)⟩

theorem loopStep_reporting {stream : List BackendMessage} {pc : LoopPoint}
    (ha : loopStep cfg stream s pc a = some s') : Reporting s s' := by
  unfold loopStep at ha
  split at ha
  · split at ha
    · cases ha
    · cases ha; exact ⟨rfl, .inl (.inl rfl)⟩
  · cases ha; exact ⟨rfl, .inl (.inl rfl)⟩
  · cases ha; exact Session.flush_reporting { s with pc := .idle }
  · cases ha; exact ⟨rfl, .inl (.inl rfl)⟩
  · split at ha <;> cases ha <;> exact ⟨rfl, .inl (.inl rfl)⟩
  · cases ha; exact ⟨rfl, .inr rfl⟩
  · cases ha; exact ⟨rfl, .inl (.inl rfl)⟩
  · cases ha; exact ⟨rfl, .inr rfl⟩
  · obtain ⟨m, -, rfl⟩ := Option.map_eq_some_iff.mp ha
    exact receiveStep_reporting cfg s m
  · cases ha; exact ⟨rfl, .inl (.inl rfl)⟩
  · cases ha; exact ⟨rfl, .inl (.inl rfl)⟩
  · cases ha

/-- Neither the teardown nor the delivery goroutine reports anything. -/
theorem teardownStep_log (ha : teardownStep s = some s') : Unreported s.log s'.log := by
  unfold teardownStep at ha
  split at ha
  · split at ha
    · cases ha; exact .inr ⟨_, rfl, by simp⟩
    · cases ha; exact .inl rfl
  · split at ha
    · cases ha; exact .inl rfl
    · cases ha; exact .inl rfl
    · cases ha
  · cases ha

theorem deliveryStep_log {ok : Bool} (ha : deliveryStep s ok = some s') : Unreported s.log s'.log := by
  unfold deliveryStep at ha
  split at ha
  · split at ha
    · split at ha <;> cases ha <;> exact .inr ⟨_, rfl, by simp⟩
    · split at ha
      · cases ha; exact .inl rfl
      · cases ha
  · split at ha <;> cases ha
    · exact .inr ⟨_, rfl, by simp⟩
    · exact .inl rfl
  · next d _ =>
    cases ha
    cases d.watermark with
    | none => exact .inl (by simp)
    | some w => exact .inr ⟨.delivered w, by simp, by simp⟩
  · cases ha; exact .inl rfl
  · cases ha; exact .inl rfl
  · cases ha; exact .inl rfl
  · cases ha
  · cases ha

/-- The delivery goroutine only ever raises the position. -/
theorem deliveryStep_client (hctl : Control s) {ok : Bool} (ha : deliveryStep s ok = some s') :
    s.clientLSN ≤ s'.clientLSN := by
  unfold deliveryStep at ha
  split at ha
  · split at ha
    · split at ha <;> cases ha <;> exact Nat.le_refl _
    · split at ha
      · cases ha; exact Nat.le_refl _
      · cases ha
  · split at ha <;> cases ha <;> exact Nat.le_refl _
  · cases ha; exact Nat.le_refl _
  · cases ha; exact Nat.le_refl _
  · next d hw => cases ha; exact Nat.le_of_lt (hctl.workerStores d hw)
  · cases ha; exact Nat.le_refl _
  · cases ha
  · cases ha

/-- And so does the loop, while it runs. -/
theorem streamStep_reporting {stream : List BackendMessage} (hctl : Control s)
    (hrun : s.phase = .running) (ha : streamStep cfg stream s a = some s') :
    Unreported s.log s'.log ∧ s.clientLSN ≤ s'.clientLSN ∨
      s'.log = s.log ++ [Entry.reported s.clientLSN] ∧ s'.clientLSN = s.clientLSN := by
  have hreport (h : Reporting s s') : Unreported s.log s'.log ∧ s.clientLSN ≤ s'.clientLSN ∨
      s'.log = s.log ++ [Entry.reported s.clientLSN] ∧ s'.clientLSN = s.clientLSN := by
    rcases h with ⟨hclient, hlog | hlog⟩
    · exact .inl ⟨hlog, Nat.le_of_eq hclient.symm⟩
    · exact .inr ⟨hlog, hclient⟩
  simp only [streamStep, hrun, if_true] at ha
  split at ha
  · next c hp =>
    cases ha
    cases c with
    | load lsn => exact .inl ⟨.inl rfl, Nat.le_refl _⟩
    | store lsn =>
      exact .inl ⟨.inl rfl, Nat.le_of_lt (hctl.loopStores lsn (Session.point_confirming hp))⟩
    | reset => exact .inl ⟨.inl rfl, Nat.le_refl _⟩
  · exact hreport (sendStep_reporting ha)
  · exact hreport (workStep_reporting ha)
  · exact hreport (loopStep_reporting ha)

/-! ## Runs -/

structure Confirmed (stream : List Sent) (s : Session V) : Prop where
  safe : Each (SafeReport stream) s.log
  sorted : (reports s.log).Pairwise (· ≤ ·)
  running : s.phase = .running → Control s ∧ Coverage stream s ∧ ∀ lsn ∈ reports s.log, lsn ≤ s.clientLSN

theorem reports_unreported (h : Unreported log log') : reports log' = reports log := by
  rcases h with rfl | ⟨x, rfl, hx⟩
  · rfl
  · cases x with
    | reported lsn => exact absurd rfl (hx lsn)
    | decoded | enqueued | dropped | handed | handled | delivered => simp [reports]

theorem each_unreported (h : Unreported log log')
    (hsafe : Each (SafeReport stream) log) : Each (SafeReport stream) log' := by
  rcases h with rfl | ⟨x, rfl, hx⟩
  · exact hsafe
  · exact each_concat.mpr ⟨hsafe, fun lsn heq => absurd heq (hx lsn)⟩

theorem Confirmed.step (hpos : ∀ m ∈ stream, ∀ e ∈ m.txn, 0 < e)
    {a : Act V} (h : Confirmed stream s) (ha : Wal.step cfg (stream.map (·.msg)) s a = some s') :
    Confirmed stream s' := by
  cases a with
  | delivery ok =>
    have hlog := deliveryStep_log ha
    refine { safe := each_unreported hlog h.safe, sorted := by rw [reports_unreported hlog]; exact h.sorted, running := ?_ }
    intro hrun'
    obtain ⟨hctl, hcov, hle⟩ := h.running ((deliveryStep_phase ha).symm.trans hrun')
    refine ⟨hctl.deliveryStep ha, hcov.deliveryStep hctl ha, ?_⟩
    rw [reports_unreported hlog]
    exact fun lsn hl => Nat.le_trans (hle lsn hl) (deliveryStep_client hctl ha)
  | stream a =>
    by_cases hrun : s.phase = .running
    · obtain ⟨hctl, hcov, hle⟩ := h.running hrun
      have hnext : s'.phase = .running → Control s' ∧ Coverage stream s' := fun hrun' =>
        ⟨hctl.streamStep hrun ha hrun', hcov.streamStep hpos hctl hrun ha hrun'⟩
      rcases streamStep_reporting hctl hrun ha with ⟨hlog, hclient⟩ | ⟨hlog, hclient⟩
      · refine { safe := each_unreported hlog h.safe, sorted := by rw [reports_unreported hlog]; exact h.sorted, running := ?_ }
        intro hrun'
        refine ⟨(hnext hrun').1, (hnext hrun').2, ?_⟩
        rw [reports_unreported hlog]
        exact fun lsn hl => Nat.le_trans (hle lsn hl) hclient
      · -- The report: the position is covered, and no report before it was higher.
        have hreports : reports s'.log = reports s.log ++ [s.clientLSN] := by rw [hlog]; simp [reports]
        refine { safe := ?_, sorted := ?_, running := ?_ }
        · rw [hlog, each_concat]
          exact ⟨h.safe, fun lsn heq => (by cases heq; exact hcov.client)⟩
        · rw [hreports, List.pairwise_append]
          exact ⟨h.sorted, by simp, by simpa using hle⟩
        · intro hrun'
          refine ⟨(hnext hrun').1, (hnext hrun').2, ?_⟩
          rw [hreports, hclient]
          intro lsn hl
          rcases List.mem_append.mp hl with hl | hl
          · exact hle lsn hl
          · exact Nat.le_of_eq (List.mem_singleton.mp hl)
    · have ha' : teardownStep s = some s' := by simpa [Wal.step, streamStep, hrun] using ha
      have hlog := teardownStep_log ha'
      refine { safe := each_unreported hlog h.safe, sorted := by rw [reports_unreported hlog]; exact h.sorted, running := ?_ }
      intro hrun'
      exact absurd hrun' (teardownStep_phase hrun ha')

theorem confirmed_start {startLSN : LSN} (hserved : Served startLSN none stream) (decoder : Decoder) :
    Confirmed stream (start startLSN decoder : Session V) := by
  have hlt := hserved.lt (by simp)
  have hcov : ∀ (log : List (Entry V)) (events : List (Event V)) (lsn : LSN), lsn ≤ startLSN →
      Covered stream log events lsn := by
    intro log events lsn hle k m e hm he hle'
    exact absurd (hlt m (List.mem_of_getElem? hm) e he) (Nat.not_lt.mpr (Nat.le_trans hle' hle))
  refine { safe := Each.nil _, sorted := List.Pairwise.nil, running := fun _ => ⟨control_start _ _, ?_, ?_⟩ }
  · exact {
      client := hcov _ _ _ (Nat.le_refl _)
      chain := ⟨hcov _ _ _ (Nat.zero_le _), trivial⟩
      flow := fun k events hmem => (by cases hmem)
      decoded := fun k hk => absurd hk (Nat.not_lt_zero k)
      rest := ⟨startLSN, none, hserved, by simp, by simp⟩
      confirmed := fun lsn hl => (by rcases hl with hl | hl <;> cases hl)
      worked := fun d hd => (by cases hd) }
  · intro lsn hl; cases hl

theorem mem_handledEvents {ev : Event V} (h : ev ∈ handledEvents log) : ∃ d, .handled d ∈ log ∧ ev ∈ d.events := by
  obtain ⟨x, hx, hev⟩ := List.mem_flatMap.mp h
  cases x with
  | handled d => exact ⟨d, hx, hev⟩
  | decoded | enqueued | dropped | handed | delivered | reported => cases hev

/-- **At-least-once confirmation.** In every run of a session, whatever the
batch size, the timing, the handler's outcomes and the interleaving of the two
goroutines: when a position is reported to the server, every message of a
transaction that ends at or before it has been decoded and each of its events
was in a unit the handler had already returned nil for; and the reported
positions never decrease. -/
theorem reported_positions_safe (cfg : Config V) (startLSN : LSN) (decoder : Decoder) (stream : List Sent)
    (hserved : Served startLSN none stream) (s : Session V)
    (hrun : Reaches (step cfg (stream.map (·.msg))) (fun _ _ => True) (start startLSN decoder) s) :
    (∀ pre lsn post, s.log = pre ++ .reported lsn :: post →
      ∀ k m e, stream[k]? = some m → m.txn = some e → e ≤ lsn →
        ∃ events, .decoded k events ∈ pre ∧ ∀ ev ∈ events, ∃ d, .handled d ∈ pre ∧ ev ∈ d.events) ∧
    (reports s.log).Pairwise (· ≤ ·) := by
  have hpos : ∀ m ∈ stream, ∀ e ∈ m.txn, 0 < e := fun m hm e he =>
    Nat.lt_of_le_of_lt (Nat.zero_le _) (hserved.lt (by simp) m hm e he)
  have hconf : Confirmed stream s :=
    hrun.invariant (fun _ _ _ h _ ha => h.step hpos ha) (confirmed_start hserved decoder)
  refine ⟨fun pre lsn post hlog k m e hm he hle => ?_, hconf.sorted⟩
  obtain ⟨events, hdec, hall⟩ := hconf.safe pre (.reported lsn) post hlog lsn rfl k m e hm he hle
  exact ⟨events, hdec, fun ev hev => mem_handledEvents (hall ev hev)⟩

/-- One transaction of one insert. -/
def oneInsert : List Sent :=
  [⟨.xLogData 0 0 (.begin 4 0 7), some 5⟩, ⟨.xLogData 3 3 (.insert 1 (some [.text [49]])), some 5⟩,
    ⟨.xLogData 4 4 (.commit 5), some 5⟩]

/-- A decoder that knows the table. -/
def usersDecoder : Decoder :=
  { newDecoder with relations := fun _ => some ⟨1, "public", "users", 'd', [⟨1, "id", 25⟩]⟩ }

def unitConfig (maxBatchEvents : Int) : Config Unit := ⟨⟨fun _ => none, fun _ => ()⟩, true, maxBatchEvents⟩

/-- The insert is received, handled, confirmed with the commit and reported. -/
def oneInsertRun : List (Act Unit) :=
  let go : Act Unit := .stream .go
  let skip : Act Unit := .stream .skip
  let receive := [go, skip, go, skip, go]
  receive ++ [go] ++
    receive ++ [go, go, go, .delivery true, .delivery true, .delivery true, .delivery true, .delivery true, go] ++
    receive ++ [go] ++ [go, skip, go, go, go, go, .stream .keepalive]

theorem reported_positions_safe_insert :
    ∃ s, runSteps (step (unitConfig 1) (oneInsert.map (·.msg))) (start 1 usersDecoder) oneInsertRun = some s ∧
      reports s.log = [5] ∧
      ∃ events, .decoded 1 events ∈ s.log.dropLast ∧ ∀ ev ∈ events, ∃ d, .handled d ∈ s.log.dropLast ∧ ev ∈ d.events := by
  refine ⟨_, rfl, rfl, ?_⟩
  exact (reported_positions_safe (unitConfig 1) 1 usersDecoder oneInsert
    (.begin (by decide) (.inside rfl (.commit .nil))) _ (@reaches_of_runSteps _ _ _ oneInsertRun _ _ rfl)).1
    _ 5 [] rfl 1 _ 5 rfl rfl (by decide)

end Gtc.Wal
