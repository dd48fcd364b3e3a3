/-
Event identity: when the events of one session have different identifiers.

An event's `ID` is the position its message was sent with, so it tells two row
changes apart exactly when their messages carry different positions. The
relations of one TRUNCATE get an index; row changes get none, and PostgreSQL
sends every row of a multi-insert record with the record's one position.
-/
import Gtc.Lib.Program
import Gtc.Wal.Decoder
import Mathlib.Data.List.Nodup

namespace Gtc

open Lib

variable {V : Type}

/-- The messages of a session with what each decoded to, up to the first one
that does not decode. -/
def decodeSession (tm : TypeMap V) : Decoder → List BackendMessage → List (BackendMessage × DecodeResult V)
  | _, [] => []
  | d, m :: ms =>
    match d.decode tm m with
    | .ok (result, d') => (m, result) :: decodeSession tm d' ms
    | .error _ => []

/-- The position of a row change. -/
def rowChange : BackendMessage → Option LSN
  | .xLogData walStart _ (.insert _ _) => some walStart
  | .xLogData walStart _ (.update _ _ _) => some walStart
  | .xLogData walStart _ (.delete _ _) => some walStart
  | _ => none

/-- The position of a TRUNCATE of some relation. -/
def truncation : BackendMessage → Option LSN
  | .xLogData walStart _ (.truncate (_ :: _)) => some walStart
  | _ => none

/-- The identifiers of the events a message decodes to. -/
def messageIDs : BackendMessage → List String
  | .xLogData walStart _ (.insert _ _) => [walStart.string]
  | .xLogData walStart _ (.update _ _ _) => [walStart.string]
  | .xLogData walStart _ (.delete _ _) => [walStart.string]
  | .xLogData walStart _ (.truncate relIDs) =>
    (List.range relIDs.length).map fun i => walStart.string ++ "-" ++ toString i
  | _ => []

/-! ## What decoding names its events -/

theorem truncateEvents_ids {d : Decoder} {lsn : LSN} {relIDs : List ℕ} {i : ℕ} {events : List (CDCEvent V)}
    (h : d.truncateEvents lsn i relIDs = .ok events) :
    events.map (·.id) = (List.range' i relIDs.length).map fun i => lsn.string ++ "-" ++ toString i := by
  induction relIDs generalizing i events with
  | nil => cases h; rfl
  | cons relID relIDs ih =>
    simp only [Decoder.truncateEvents, bind_eq_ok] at h
    obtain ⟨rel, -, rest, hrest, h⟩ := h
    cases h
    simp [List.range'_succ, ih hrest]

theorem decodeWALData_ids {tm : TypeMap V} {d d' : Decoder} {msg : LogicalMsg} {lsn end_ : LSN}
    {result : DecodeResult V} (h : d.decodeWALData tm msg lsn = .ok (result, d')) :
    result.events.map (·.id) = messageIDs (.xLogData lsn end_ msg) := by
  cases msg with
  | begin | commit | relation | message | other => cases h; rfl
  | stream goType => cases h
  | insert relationID tuple =>
    simp only [Decoder.decodeWALData, bind_eq_ok] at h
    obtain ⟨rel, -, new, -, h⟩ := h
    cases h; rfl
  | update relationID oldTuple newTuple =>
    simp only [Decoder.decodeWALData, bind_eq_ok] at h
    obtain ⟨rel, -, new, -, old, -, h⟩ := h
    cases h; rfl
  | delete relationID oldTuple =>
    simp only [Decoder.decodeWALData, bind_eq_ok] at h
    obtain ⟨rel, -, old, -, h⟩ := h
    cases h; rfl
  | truncate relIDs =>
    simp only [Decoder.decodeWALData, bind_eq_ok] at h
    obtain ⟨events, hevents, h⟩ := h
    cases h
    rw [truncateEvents_ids hevents, messageIDs, List.range_eq_range']

theorem decode_ids {tm : TypeMap V} {d d' : Decoder} {m : BackendMessage} {result : DecodeResult V}
    (h : d.decode tm m = .ok (result, d')) : result.events.map (·.id) = messageIDs m := by
  cases m with
  | errorResponse | keepalive | other => cases h; rfl
  | malformed err => cases h
  | xLogData walStart serverWALEnd msg =>
    simp only [Decoder.decode, bind_eq_ok] at h
    obtain ⟨r, hr, h⟩ := h
    cases h
    exact @decodeWALData_ids V tm d r.2 msg walStart serverWALEnd r.1 hr

/-- The identifiers of a session's events are those its messages give. -/
theorem decodeSession_ids (tm : TypeMap V) (d : Decoder) (ms : List BackendMessage) :
    ((decodeSession tm d ms).flatMap (·.2.events)).map (·.id) =
      ((decodeSession tm d ms).map (·.1)).flatMap messageIDs := by
  induction ms generalizing d with
  | nil => rfl
  | cons m ms ih =>
    unfold decodeSession
    cases h : d.decode tm m with
    | error err => rfl
    | ok r => simp [decode_ids h, ih]

/-! ## Which messages share an identifier -/

/-- The identifier of a TRUNCATE's relation is split at its dash. -/
theorem truncateID_inj {a b i j : ℕ} (h : LSN.string a ++ "-" ++ toString i = LSN.string b ++ "-" ++ toString j) :
    a = b ∧ i = j := by
  have htext : (LSN.string a).toList ++ '-' :: Nat.toDigits 10 i = (LSN.string b).toList ++ '-' :: Nat.toDigits 10 j := by
    simpa using congrArg String.toList h
  obtain ⟨hlsn, hidx⟩ := Lib.append_cons_inj_of_notMem (LSN.dash_notMem_string a) (LSN.dash_notMem_string b) htext
  refine ⟨LSN.string_inj (String.toList_inj.mp hlsn), ?_⟩
  rw [← @Nat.ofDigitChars_ten_toDigits i, hidx, Nat.ofDigitChars_ten_toDigits]

theorem string_ne_truncateID (a b i : ℕ) : LSN.string a ≠ LSN.string b ++ "-" ++ toString i := by
  intro h
  refine LSN.dash_notMem_string a ?_
  rw [h]
  simp

/-- A message is a row change, a TRUNCATE of something, or gives no event. -/
theorem message_cases (m : BackendMessage) :
    (∃ lsn, rowChange m = some lsn ∧ truncation m = none ∧ messageIDs m = [LSN.string lsn]) ∨
    (∃ lsn n, rowChange m = none ∧ truncation m = some lsn ∧
      messageIDs m = (List.range (n + 1)).map fun i => LSN.string lsn ++ "-" ++ toString i) ∨
    (rowChange m = none ∧ truncation m = none ∧ messageIDs m = []) := by
  match m with
  | .errorResponse _ | .keepalive _ _ | .malformed _ | .other => exact .inr (.inr ⟨rfl, rfl, rfl⟩)
  | .xLogData walStart _ msg =>
    match msg with
    | .begin _ _ _ | .commit _ | .relation _ | .message _ _ _ | .stream _ | .other | .truncate [] =>
      exact .inr (.inr ⟨rfl, rfl, rfl⟩)
    | .insert _ _ | .update _ _ _ | .delete _ _ => exact .inl ⟨walStart, rfl, rfl, rfl⟩
    | .truncate (_ :: relIDs) => exact .inr (.inl ⟨walStart, relIDs.length, rfl, rfl, rfl⟩)

theorem messageIDs_nodup (m : BackendMessage) : (messageIDs m).Nodup := by
  rcases message_cases m with ⟨lsn, -, -, hids⟩ | ⟨lsn, n, -, -, hids⟩ | ⟨-, -, hids⟩
  · simp [hids]
  · rw [hids]
    exact List.nodup_range.map fun i j h => (truncateID_inj h).2
  · simp [hids]

/-- A row change and a TRUNCATE never share an identifier. -/
theorem row_disjoint_truncation (a b n : ℕ) :
    List.Disjoint [LSN.string a] ((List.range n).map fun i => LSN.string b ++ "-" ++ toString i) := by
  intro id hid hid'
  obtain ⟨i, -, hi⟩ := List.mem_map.mp hid'
  exact string_ne_truncateID a b i ((List.mem_singleton.mp hid).symm.trans hi.symm)

/-- Two TRUNCATEs share an identifier when they have one position: each has a
relation of index 0. -/
theorem truncation_disjoint_iff (a b m n : ℕ) :
    List.Disjoint ((List.range (m + 1)).map fun i => LSN.string a ++ "-" ++ toString i)
      ((List.range (n + 1)).map fun i => LSN.string b ++ "-" ++ toString i) ↔ a ≠ b := by
  constructor
  · rintro h rfl
    exact h (List.mem_map.mpr ⟨0, by simp, rfl⟩) (List.mem_map.mpr ⟨0, by simp, rfl⟩)
  · intro hne id hid hid'
    obtain ⟨i, -, hi⟩ := List.mem_map.mp hid
    obtain ⟨j, -, hj⟩ := List.mem_map.mp hid'
    exact hne (truncateID_inj (hi.trans hj.symm)).1

/-- Two messages give no identifier in common when they are not row changes of
one position nor TRUNCATEs of one position. -/
theorem messageIDs_disjoint_iff (m m' : BackendMessage) : List.Disjoint (messageIDs m) (messageIDs m') ↔
    (∀ a ∈ rowChange m, ∀ b ∈ rowChange m', a ≠ b) ∧ ∀ a ∈ truncation m, ∀ b ∈ truncation m', a ≠ b := by
  rcases message_cases m with ⟨lsn, hrow, htrunc, hids⟩ | ⟨lsn, n, hrow, htrunc, hids⟩ | ⟨hrow, htrunc, hids⟩
  · rcases message_cases m' with ⟨lsn', hrow', htrunc', hids'⟩ | ⟨lsn', n', hrow', htrunc', hids'⟩ | ⟨hrow', htrunc', hids'⟩
    · have hdisj : List.Disjoint [LSN.string lsn] [LSN.string lsn'] ↔ lsn ≠ lsn' := by
        rw [List.singleton_disjoint, List.mem_singleton]
        exact not_congr ⟨LSN.string_inj, fun h => by rw [h]⟩
      rw [hids, hids', hdisj, hrow, hrow', htrunc]
      simp
    · have hdisj := row_disjoint_truncation lsn lsn' (n' + 1)
      rw [hids, hids', iff_true_left hdisj, hrow', htrunc]
      simp
    · simp [hids', hrow', htrunc]
  · rcases message_cases m' with ⟨lsn', hrow', htrunc', hids'⟩ | ⟨lsn', n', hrow', htrunc', hids'⟩ | ⟨hrow', htrunc', hids'⟩
    · have hdisj : List.Disjoint ((List.range (n + 1)).map _) [LSN.string lsn'] :=
        fun id h h' => row_disjoint_truncation lsn' lsn (n + 1) h' h
      rw [hids, hids', iff_true_left hdisj, hrow, htrunc']
      simp
    · rw [hids, hids', truncation_disjoint_iff, hrow, htrunc, htrunc']
      simp
    · simp [hids', hrow', htrunc']
  · simp [hids, hrow, htrunc]

/-- **When event identifiers are unique.** For every decoder state and every
stream decoded from it, the events of the session have pairwise different
identifiers exactly when no two row changes among its messages carry the same
position and no two TRUNCATEs do. -/
theorem event_ids_nodup_iff (tm : TypeMap V) (d : Decoder) (ms : List BackendMessage) :
    (((decodeSession tm d ms).flatMap (·.2.events)).map (·.id)).Nodup ↔
      (((decodeSession tm d ms).map (·.1)).filterMap rowChange).Nodup ∧
        (((decodeSession tm d ms).map (·.1)).filterMap truncation).Nodup := by
  rw [decodeSession_ids, List.nodup_flatMap]
  simp only [List.Nodup, List.pairwise_filterMap, ← List.pairwise_and_iff]
  constructor
  · intro h
    exact h.2.imp fun hdisj => (messageIDs_disjoint_iff _ _).mp hdisj
  · intro h
    exact ⟨fun m _ => messageIDs_nodup m, h.imp fun hne => (messageIDs_disjoint_iff _ _).mpr hne⟩

/-- `COPY users FROM …` of two rows: one multi-insert record, so both rows come
with its position. -/
def copyStream : List BackendMessage :=
  [.xLogData 0 0 (.begin 0x30 0 7),
    .xLogData 0 0 (.relation ⟨1, "public", "users", 'd', [⟨1, "id", 23⟩]⟩),
    .xLogData 0x20 0x30 (.insert 1 (some [.text [49]])),
    .xLogData 0x20 0x30 (.insert 1 (some [.text [50]])),
    .xLogData 0x30 0x30 (.commit 0x38)]

theorem copy_rows_share_id :
    ¬ ∀ (tm : TypeMap String) (d : Decoder) (ms : List BackendMessage),
      (((decodeSession tm d ms).flatMap (·.2.events)).map (·.id)).Nodup := by
  intro h
  exact absurd (h ⟨fun _ => none, fun _ => ""⟩ newDecoder copyStream) (by decide)

end Gtc
