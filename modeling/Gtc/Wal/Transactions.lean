/-
Open transactions, from one connection to the next.

`NewReader` makes the decoder, and every connection of the reader's life
decodes with it. Begin sets its `inTxn` and Commit clears it; nothing else
does, a reconnect included. So while a connection has delivered neither, the
flag says whether an *earlier* connection broke off inside a transaction: a
keepalive is then not acknowledged, although this connection has no transaction
open (`keepalive_ack_iff`, `keepalive_ack_stale`).
-/
import Gtc.Lib.Program
import Gtc.Wal.Confirm

namespace Gtc.Wal

open Lib

variable {V : Type}

/-! ## Begin and Commit -/

/-- What a message does to `inTxn`. -/
def txnMark : BackendMessage → Option Bool
  | .xLogData _ _ (.begin _ _ _) => some true
  | .xLogData _ _ (.commit _) => some false
  | _ => none

/-- Some Begin is not followed by a Commit. -/
def OpenTxn (ms : List BackendMessage) : Prop :=
  ∃ before m after, ms = before ++ m :: after ∧ txnMark m = some true ∧ ∀ m' ∈ after, txnMark m' ≠ some false

/-- The last Begin or Commit. -/
def lastMark (ms : List BackendMessage) : Option Bool := (ms.filterMap txnMark).getLast?

theorem lastMark_append (ms ms' : List BackendMessage) : lastMark (ms ++ ms') = (lastMark ms').or (lastMark ms) := by
  simp only [lastMark, List.filterMap_append, List.getLast?_append]

theorem lastMark_cons (m : BackendMessage) (ms : List BackendMessage) :
    lastMark (m :: ms) = (lastMark ms).or (txnMark m) := by
  have hone : lastMark [m] = txnMark m := by
    cases hm : txnMark m <;> simp [lastMark, hm]
  rw [← hone, ← lastMark_append, List.singleton_append]

theorem openTxn_iff (ms : List BackendMessage) : OpenTxn ms ↔ lastMark ms = some true := by
  constructor
  · rintro ⟨before, m, after, rfl, hm, hafter⟩
    have hnot : lastMark after ≠ some false := by
      intro h
      obtain ⟨m', hm', hmark⟩ := List.mem_filterMap.mp (List.mem_of_getLast? h)
      exact hafter m' hm' hmark
    rw [lastMark_append, lastMark_cons, hm]
    cases hlast : lastMark after with
    | none => rfl
    | some b =>
      cases b with
      | true => rfl
      | false => exact absurd hlast hnot
  · intro h
    induction ms with
    | nil => cases h
    | cons m ms ih =>
      rw [lastMark_cons] at h
      cases hlast : lastMark ms with
      | some b =>
        rw [hlast] at h
        cases h
        obtain ⟨before, m', after, rfl, hmark, hafter⟩ := ih hlast
        exact ⟨m :: before, m', after, rfl, hmark, hafter⟩
      | none =>
        rw [hlast, Option.none_or] at h
        refine ⟨[], m, ms, rfl, h, fun m' hm' hmark => ?_⟩
        have hnil : ms.filterMap txnMark = [] := List.getLast?_eq_none_iff.mp hlast
        exact List.not_mem_nil (hnil ▸ List.mem_filterMap.mpr ⟨m', hm', hmark⟩)

/-! ## What decoding leaves behind -/

/-- The decoder after a message: one that fails to decode changes nothing. -/
def decodeNext (tm : TypeMap V) (d : Decoder) (m : BackendMessage) : Decoder :=
  match d.decode tm m with
  | .ok (_, d') => d'
  | .error _ => d

def decodeAll (tm : TypeMap V) (d : Decoder) (ms : List BackendMessage) : Decoder := ms.foldl (decodeNext tm) d

variable {d : Decoder} {cfg : Config V} {stream : List BackendMessage} {s s' : Session V} {a : StreamAct V}

theorem decode_inTxn {tm : TypeMap V} {d' : Decoder} {m : BackendMessage} {result : DecodeResult V}
    (h : d.decode tm m = .ok (result, d')) : d'.txn.inTxn = (txnMark m).getD d.txn.inTxn := by
  cases m with
  | errorResponse | keepalive | other => cases h; rfl
  | malformed => cases h
  | xLogData walStart serverWALEnd msg =>
    obtain ⟨⟨r, d₁⟩, hmsg, hret⟩ := bind_eq_ok.mp h
    cases hret
    cases msg with
    | «begin» | commit | relation | message | other => cases hmsg; rfl
    | stream => cases hmsg
    | insert relationID tuple =>
      obtain ⟨rel, -, hmsg⟩ := bind_eq_ok.mp hmsg
      obtain ⟨new, -, hmsg⟩ := bind_eq_ok.mp hmsg
      cases hmsg; rfl
    | update relationID oldTuple newTuple =>
      obtain ⟨rel, -, hmsg⟩ := bind_eq_ok.mp hmsg
      obtain ⟨new, -, hmsg⟩ := bind_eq_ok.mp hmsg
      obtain ⟨old, -, hmsg⟩ := bind_eq_ok.mp hmsg
      cases hmsg; rfl
    | delete relationID oldTuple =>
      obtain ⟨rel, -, hmsg⟩ := bind_eq_ok.mp hmsg
      obtain ⟨old, -, hmsg⟩ := bind_eq_ok.mp hmsg
      cases hmsg; rfl
    | truncate relationIDs =>
      obtain ⟨events, -, hmsg⟩ := bind_eq_ok.mp hmsg
      cases hmsg; rfl

/-- Begin and Commit always decode, so a message that does not leaves `inTxn`
as it should. -/
theorem txnMark_of_error {tm : TypeMap V} {m : BackendMessage} {err : Err}
    (h : d.decode tm m = .error err) : txnMark m = none := by
  unfold txnMark
  split
  · cases h
  · cases h
  · rfl

theorem decodeNext_inTxn (tm : TypeMap V) (d : Decoder) (m : BackendMessage) :
    (decodeNext tm d m).txn.inTxn = (txnMark m).getD d.txn.inTxn := by
  unfold decodeNext
  split
  · next h => exact decode_inTxn h
  · next h => rw [txnMark_of_error h, Option.getD_none]

theorem decodeAll_inTxn (tm : TypeMap V) (d : Decoder) (ms : List BackendMessage) :
    (decodeAll tm d ms).txn.inTxn = (lastMark ms).getD d.txn.inTxn := by
  induction ms generalizing d with
  | nil => rfl
  | cons m ms ih =>
    have hcons : decodeAll tm d (m :: ms) = decodeAll tm (decodeNext tm d m) ms := rfl
    rw [hcons, ih, decodeNext_inTxn, lastMark_cons]
    cases lastMark ms <;> rfl

/-! ## The decoder of a session -/

/-- A step of a session takes no message, or the next one of the stream. -/
def Takes (cfg : Config V) (stream : List BackendMessage) (s s' : Session V) : Prop :=
  (s'.received = s.received ∧ s'.decoder = s.decoder) ∨
    ∃ m, stream[s.received]? = some m ∧ s'.received = s.received + 1 ∧ s'.decoder = decodeNext cfg.typeMap s.decoder m

theorem flush_received (s : Session V) : s.flush.received = s.received ∧ s.flush.decoder = s.decoder := by
  unfold Session.flush
  split <;> exact ⟨rfl, rfl⟩

theorem appendEvent_received (maxBatch : ℕ) (s : Session V) (e : Event V) :
    (s.appendEvent maxBatch e).received = s.received ∧ (s.appendEvent maxBatch e).decoder = s.decoder := by
  unfold Session.appendEvent
  dsimp only
  split
  · exact flush_received _
  · exact ⟨rfl, rfl⟩

theorem receiveStep_takes (cfg : Config V) (s : Session V) (m : BackendMessage) :
    (receiveStep cfg s m).received = s.received + 1 ∧
      (receiveStep cfg s m).decoder = decodeNext cfg.typeMap s.decoder m := by
  unfold receiveStep
  dsimp only
  split
  · exact ⟨rfl, rfl⟩
  · unfold decodeNext
    split <;> next hd => rw [hd]; exact ⟨rfl, rfl⟩

theorem sendStep_takes {d : Delivery V}
    {ds : List (Delivery V)} (ha : sendStep s d ds a = some s') : Takes cfg stream s s' := by
  left
  unfold sendStep at ha
  split at ha
  · split at ha
    · split at ha <;> cases ha
      exact ⟨rfl, rfl⟩
    · cases ha; exact ⟨rfl, rfl⟩
  · split at ha <;> cases ha
    exact ⟨rfl, rfl⟩
  · split at ha <;> cases ha
    exact ⟨rfl, rfl⟩
  · cases ha

theorem workStep_takes {t : Task V}
    {ts : List (Task V)} (ha : workStep cfg s t ts a = some s') : Takes cfg stream s s' := by
  left
  unfold workStep at ha
  split at ha
  · split at ha
    · cases ha; exact appendEvent_received _ _ _
    · split at ha <;> cases ha
      exact flush_received s
    · cases ha; exact ⟨rfl, rfl⟩
    · cases ha
  · split at ha
    · dsimp only at ha
      split at ha <;> cases ha
      exact ⟨rfl, rfl⟩
    · cases ha
  · split at ha <;> cases ha
    exact ⟨rfl, rfl⟩
  · split at ha <;> cases ha
    exact ⟨rfl, rfl⟩
  · cases ha

theorem loopStep_takes {pc : LoopPoint} (ha : loopStep cfg stream s pc a = some s') : Takes cfg stream s s' := by
  unfold loopStep at ha
  split at ha
  · split at ha <;> cases ha
    exact .inl ⟨rfl, rfl⟩
  · cases ha; exact .inl ⟨rfl, rfl⟩
  · cases ha; exact .inl (flush_received _)
  · cases ha; exact .inl ⟨rfl, rfl⟩
  · split at ha <;> cases ha <;> exact .inl ⟨rfl, rfl⟩
  · cases ha; exact .inl ⟨rfl, rfl⟩
  · cases ha; exact .inl ⟨rfl, rfl⟩
  · cases ha; exact .inl ⟨rfl, rfl⟩
  · obtain ⟨m, hm, rfl⟩ := Option.map_eq_some_iff.mp ha
    exact .inr ⟨m, hm, receiveStep_takes cfg s m⟩
  · cases ha; exact .inl ⟨rfl, rfl⟩
  · cases ha; exact .inl ⟨rfl, rfl⟩
  · cases ha

theorem teardownStep_takes (ha : teardownStep s = some s') : Takes cfg stream s s' := by
  left
  unfold teardownStep at ha
  split at ha
  · split at ha <;> cases ha <;> exact ⟨rfl, rfl⟩
  · split at ha <;> cases ha <;> exact ⟨rfl, rfl⟩
  · cases ha

theorem deliveryStep_takes {ok : Bool} (ha : deliveryStep s ok = some s') : Takes cfg stream s s' := by
  left
  unfold deliveryStep at ha
  split at ha
  · split at ha
    · split at ha <;> cases ha <;> exact ⟨rfl, rfl⟩
    · split at ha <;> cases ha
      exact ⟨rfl, rfl⟩
  · split at ha <;> cases ha <;> exact ⟨rfl, rfl⟩
  all_goals cases ha
  all_goals exact ⟨rfl, rfl⟩

theorem step_takes {a : Act V} (ha : step cfg stream s a = some s') : Takes cfg stream s s' := by
  cases a with
  | delivery ok => exact deliveryStep_takes ha
  | stream a =>
    simp only [step, streamStep] at ha
    split at ha
    · split at ha
      · next c _ => cases ha; cases c <;> exact .inl ⟨rfl, rfl⟩
      · exact sendStep_takes ha
      · exact workStep_takes ha
      · exact loopStep_takes ha
    · exact teardownStep_takes ha

/-- The decoder of a session is the one it started with, taken through the
messages received. -/
theorem decoder_of_run {startLSN : LSN} (hrun : Reaches (step cfg stream) (fun _ _ => True) (start startLSN d) s) :
    s.decoder = decodeAll cfg.typeMap d (stream.take s.received) := by
  refine hrun.invariant (P := fun s => s.decoder = decodeAll cfg.typeMap d (stream.take s.received)) ?_ rfl
  intro t a u ht _ ha
  rcases step_takes ha with ⟨hrec, hdec⟩ | ⟨m, hm, hrec, hdec⟩
  · rw [hrec, hdec]; exact ht
  · rw [hrec, hdec, List.take_add_one, hm, ht]
    simp only [decodeAll, Option.toList_some, List.foldl_append, List.foldl_cons, List.foldl_nil]

/-! ## Connections of one reader -/

/-- The connections a reader has served, one after the other: what they
delivered, all together, and the decoder they left. Each began where the slot
stood (another node may have moved it on) and has ended. -/
inductive Connections (cfg : Config V) : List BackendMessage → Decoder → Prop
  | newReader : Connections cfg [] newDecoder
  | ended {past d stream startLSN s} : Connections cfg past d →
      Reaches (step cfg stream) (fun _ _ => True) (start startLSN d) s → s.phase = .returned →
      Connections cfg (past ++ stream.take s.received) s.decoder

theorem Connections.inTxn {past : List BackendMessage} (h : Connections cfg past d) :
    d.txn.inTxn = (lastMark past).getD false := by
  induction h with
  | newReader => rfl
  | @ended past d stream startLSN s _ hrun _ ih =>
    rw [decoder_of_run hrun, decodeAll_inTxn, ih, lastMark_append]
    cases lastMark (stream.take s.received) <;> rfl

/-- The connection has delivered no Begin and no Commit, and the last one
delivered before it was a Begin: an earlier connection ended inside a
transaction. -/
def StaleTxn (past current : List BackendMessage) : Prop :=
  lastMark current = none ∧ OpenTxn past

/-- **Transaction state and the connection.** Whatever connections a reader has
served and wherever its present one stands, a keepalive decodes; its end of WAL
is acknowledged exactly when this connection has no transaction open, except
when an earlier connection ended inside a transaction and this one has
delivered no Begin or Commit yet. (A position of zero is never an
acknowledgement: there the two can only agree when no transaction is open.) -/
theorem keepalive_ack_iff (cfg : Config V) (past : List BackendMessage) (d : Decoder) (hpast : Connections cfg past d)
    (stream : List BackendMessage) (startLSN : LSN) (s : Session V)
    (hrun : Reaches (step cfg stream) (fun _ _ => True) (start startLSN d) s) (serverWALEnd : LSN)
    (replyRequested : Bool) :
    ∃ result d', s.decoder.decode cfg.typeMap (.keepalive serverWALEnd replyRequested) = .ok (result, d') ∧
      ((result.ackLSN = serverWALEnd ↔ ¬ OpenTxn (stream.take s.received)) ↔
        if serverWALEnd = 0 then ¬ OpenTxn (stream.take s.received) else ¬ StaleTxn past (stream.take s.received)) := by
  refine ⟨_, _, rfl, ?_⟩
  have hflag : s.decoder.txn.inTxn = (lastMark (stream.take s.received)).getD ((lastMark past).getD false) := by
    rw [decoder_of_run hrun, decodeAll_inTxn, hpast.inTxn]
  by_cases hzero : serverWALEnd = 0
  · simp [hzero]
  · have hack : (if s.decoder.txn.inTxn then 0 else serverWALEnd) = serverWALEnd ↔ s.decoder.txn.inTxn = false := by
      cases s.decoder.txn.inTxn
      · simp
      · simpa using Ne.symm hzero
    rw [if_neg hzero, hack, hflag, StaleTxn, openTxn_iff, openTxn_iff]
    cases lastMark (stream.take s.received) with
    | some b => cases b <;> simp
    | none => cases lastMark past with
      | none => simp
      | some b => cases b <;> simp

/-! ## A connection that breaks inside a transaction -/

def beginOnly : List BackendMessage := [.xLogData 0 0 (.begin 4 0 7)]

def receiveBegin : List (Act Unit) :=
  let go : Act Unit := .stream .go
  [go, .stream .skip, go, .stream .skip, go]

/-- The connection fails after the Begin. -/
def brokenRun : List (Act Unit) :=
  let go : Act Unit := .stream .go
  receiveBegin ++ [go, .stream .stop, go, .delivery true, go]

theorem connections_broken : ∃ d, Connections (unitConfig 1) beginOnly d ∧ d.txn.inTxn = true := by
  obtain ⟨s, hrun, hphase, hrec, htxn⟩ : ∃ s, runSteps (step (unitConfig 1) beginOnly) (start 1 newDecoder) brokenRun =
      some s ∧ s.phase = .returned ∧ s.received = 1 ∧ s.decoder.txn.inTxn = true := ⟨_, rfl, rfl, rfl, rfl⟩
  have hconn := Connections.ended .newReader (reaches_of_runSteps hrun) hphase
  rw [hrec] at hconn
  exact ⟨s.decoder, hconn, htxn⟩

/-- The next connection delivers the transaction again. -/
theorem keepalive_ack_redelivered :
    ∃ d s result d', Connections (unitConfig 1) beginOnly d ∧
      runSteps (step (unitConfig 1) beginOnly) (start 1 d) receiveBegin = some s ∧
      s.decoder.decode (unitConfig 1).typeMap (.keepalive 9 false) = .ok (result, d') ∧
      (result.ackLSN = 9 ↔ ¬ OpenTxn (beginOnly.take s.received)) := by
  obtain ⟨d, hd, -⟩ := connections_broken
  obtain ⟨s, hs, hrec⟩ : ∃ s, runSteps (step (unitConfig 1) beginOnly) (start 1 d) receiveBegin = some s ∧
      s.received = 1 := ⟨_, rfl, rfl⟩
  obtain ⟨result, d', hdec, hiff⟩ := keepalive_ack_iff (unitConfig 1) beginOnly d hd beginOnly 1 s
    (reaches_of_runSteps hs) 9 false
  refine ⟨d, s, result, d', hd, hs, hdec, hiff.mpr ?_⟩
  rw [if_neg (by decide), hrec]
  exact fun hstale => absurd hstale.1 (by decide)

/-- The next connection has delivered nothing yet, and its keepalive is not
acknowledged. -/
theorem keepalive_ack_stale :
    ∃ d result d', Connections (unitConfig 1) beginOnly d ∧
      (start 1 d : Session Unit).decoder.decode (unitConfig 1).typeMap (.keepalive 9 false) = .ok (result, d') ∧
      result.ackLSN ≠ 9 ∧ ¬ OpenTxn ([] : List BackendMessage) := by
  obtain ⟨d, hd, htxn⟩ := connections_broken
  refine ⟨d, _, _, hd, rfl, ?_, ?_⟩
  · simp [start, htxn]
  · rw [openTxn_iff]; decide

end Gtc.Wal
