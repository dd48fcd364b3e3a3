/-
A Meilisearch plan does what its events do one at a time.

A plan keeps a list of runs per index. An event joins the index's last run when
that is of its kind, and inside a run a document sent before is overwritten,
merged or skipped in place. Documents of different keys do not affect each
other, so changing an earlier document of a run is the same as writing it once
more at the end (`applyAll_replace_again`, `applyAll_merge_again`); over a
batch this gives `plan_eq_one_by_one`.
-/
import Gtc.Sink.Meilisearch

namespace Gtc

open Lib

variable {V : Type}

/-! ## Merged rows -/

theorem get_mergeData (old data : Data V) (name : String) : (mergeData old data).get name = (data.get name).or (old.get name) := by
  unfold mergeData Data.get
  rw [List.lookup_append, lookup_filter_fst fun name => (data.lookup name).isNone]
  cases data.lookup name <;> simp

theorem doc_mergeData (old data : Data V) : (mergeData old data).doc = overlay old.doc data.doc :=
  funext (get_mergeData old data)

variable {s : MeiliSink V} {primaryKey id index : String} {data : Data V} {r : MeiliRun V} {kind : RunKind}
  {w : MeiliWrite V} {f : MeiliRun V → MeiliRun V} {event : CDCEvent V} {keys : String → String}
  {events : List (CDCEvent V)} {p : BatchPlan V}

theorem MeiliSink.keyOf_mergeData
    (h : s.keyOf primaryKey data = some id) (old : Data V) : s.keyOf primaryKey (mergeData old data) = some id := by
  unfold MeiliSink.keyOf at h ⊢
  rw [get_mergeData]
  cases hget : data.get primaryKey with
  | none => rw [hget] at h; cases h
  | some val => rw [hget] at h; exact h

/-! ## What joining a run does -/

/-- The write of a document in a run of this kind. -/
def docWrite (kind : RunKind) (id : String) (data : Data V) : MeiliWrite V :=
  if kind = .runPartial then .merge id data.doc else .replace id data.doc

/-- A run of documents: adds or updates. -/
def RunKind.OfDocs (kind : RunKind) : Prop := kind = .runReplace ∨ kind = .runPartial

theorem MeiliRun.writes_docs (h : r.kind.OfDocs) :
    r.writes s = r.docs.filterMap fun doc => (s.keyOf r.primaryKey doc).map (docWrite r.kind · doc) := by
  rcases h with h | h <;> simp [MeiliRun.writes, h, docWrite]

/-- `pos` says where each key of the run is, and nothing else is in it. -/
structure Placed (s : MeiliSink V) (r : MeiliRun V) : Prop where
  docs : r.kind.OfDocs → ∀ i doc, r.docs[i]? = some doc →
    ∃ id, s.keyOf r.primaryKey doc = some id ∧ r.pos.lookup id = some i
  pos : r.kind.OfDocs → ∀ id i, r.pos.lookup id = some i →
    ∃ doc, r.docs[i]? = some doc ∧ s.keyOf r.primaryKey doc = some id
  ids : r.kind = .runDelete → ∀ id, (r.pos.lookup id).isSome → id ∈ r.ids

theorem docWrite_touches {k : String} : (docWrite kind id data).Touches k ↔ k = id := by
  unfold docWrite
  split <;> rfl

/-- The key of a run's document at place `i` is at no other place. -/
theorem Placed.elsewhere (hok : Placed s r) (hkind : r.kind.OfDocs) {i : ℕ}
    (hpos : r.pos.lookup id = some i) : ∀ w ∈ (r.docs.drop (i + 1)).filterMap
      fun doc => (s.keyOf r.primaryKey doc).map (docWrite r.kind · doc), ¬ w.Touches id := by
  intro w hw htouch
  obtain ⟨doc, hdoc, hkey⟩ := List.mem_filterMap.mp hw
  obtain ⟨j, hj⟩ := List.getElem?_of_mem hdoc
  rw [List.getElem?_drop] at hj
  obtain ⟨id', hkey', hpos'⟩ := hok.docs hkind _ doc hj
  rw [hkey', Option.map_some, Option.some.injEq] at hkey
  subst hkey
  rw [docWrite_touches] at htouch
  subst htouch
  rw [hpos, Option.some.injEq] at hpos'
  omega

/-- `r'` is the run `r` with one more write. -/
structure Joins (s : MeiliSink V) (r r' : MeiliRun V) (w : MeiliWrite V) : Prop where
  kind : r'.kind = r.kind
  primaryKey : r'.primaryKey = r.primaryKey
  ok : Placed s r'
  same : ∀ c, applyAll (r'.writes s) c = w.apply (applyAll (r.writes s) c)
  covered : ∀ w' ∈ r'.writes s, Covers (r.writes s ++ [w]) w'

theorem Joins.eventIDs {r' : MeiliRun V} (h : Joins s r r' w)
    (eventIDs : List String) : Joins s r { r' with eventIDs } w :=
  ⟨h.kind, h.primaryKey, ⟨h.ok.docs, h.ok.pos, h.ok.ids⟩, h.same, h.covered⟩

/-- A document whose key the run does not have yet goes to its end. -/
theorem addDoc_new (hok : Placed s r) (hkind : r.kind.OfDocs)
    (hkey : s.keyOf r.primaryKey data = some id) (hnew : r.pos.lookup id = none) :
    Joins s r (r.addDoc id data) (docWrite r.kind id data) := by
  have hadd : r.addDoc id data = { r with pos := (id, r.docs.length) :: r.pos, docs := r.docs ++ [data] } := by
    simp [MeiliRun.addDoc, hnew]
  have hwrites : (r.addDoc id data).writes s = r.writes s ++ [docWrite r.kind id data] := by
    rw [MeiliRun.writes_docs (by rw [hadd]; exact hkind), MeiliRun.writes_docs hkind, hadd]
    simp [hkey]
  refine ⟨by rw [hadd], by rw [hadd], ⟨?_, ?_, ?_⟩, fun c => by rw [hwrites]; simp, fun w' hw' => ?_⟩
  · rw [hadd]
    intro _ i doc hdoc
    rw [List.getElem?_append] at hdoc
    split at hdoc
    · obtain ⟨id', hkey', hpos⟩ := hok.docs hkind i doc hdoc
      refine ⟨id', hkey', ?_⟩
      have hne : id' ≠ id := by rintro rfl; rw [hnew] at hpos; cases hpos
      rw [List.lookup_cons, beq_false_of_ne hne]
      exact hpos
    · have hlast := (List.getElem?_eq_some_iff.mp hdoc).1
      simp only [List.length_singleton, Nat.lt_one_iff] at hlast
      obtain rfl := List.mem_singleton.mp (List.mem_of_getElem? hdoc)
      exact ⟨id, hkey, by simp; omega⟩
  · rw [hadd]
    intro _ id' i hpos
    rw [List.lookup_cons] at hpos
    by_cases hid : id' = id
    · subst hid
      simp only [beq_self_eq_true, Option.some.injEq] at hpos
      subst hpos
      exact ⟨data, by simp, hkey⟩
    · simp only [beq_false_of_ne hid] at hpos
      obtain ⟨doc, hdoc, hkey'⟩ := hok.pos hkind id' i hpos
      exact ⟨doc, by rw [List.getElem?_append_left (List.getElem?_eq_some_iff.mp hdoc).1, hdoc], hkey'⟩
  · rw [hadd]
    intro hdelete
    rcases hkind with h | h <;> simp [h] at hdelete
  · rw [hwrites] at hw'
    exact Covers.of_mem hw'

/-- A document whose key the run has takes its place, merged with it in a run of
updates. -/
theorem addDoc_again (hok : Placed s r) (hkind : r.kind.OfDocs)
    (hkey : s.keyOf r.primaryKey data = some id) {i : ℕ} (hpos : r.pos.lookup id = some i) :
    Joins s r (r.addDoc id data) (docWrite r.kind id data) := by
  obtain ⟨old, hold, hkeyOld⟩ := hok.pos hkind id i hpos
  let doc := if r.kind = .runPartial then mergeData old data else data
  have hadd : r.addDoc id data = { r with docs := r.docs.set i doc } := by
    by_cases hpartial : r.kind = .runPartial
    · simp [MeiliRun.addDoc, hpos, hpartial, doc, List.modify_eq_set_getElem?, hold]
    · simp [MeiliRun.addDoc, hpos, hpartial, doc]
  have hlt := (List.getElem?_eq_some_iff.mp hold).1
  have hkeyDoc : s.keyOf r.primaryKey doc = some id := by
    by_cases hpartial : r.kind = .runPartial
    · simpa [doc, hpartial] using MeiliSink.keyOf_mergeData hkey old
    · simpa [doc, hpartial] using hkey
  let write := fun doc => (s.keyOf r.primaryKey doc).map (docWrite r.kind · doc)
  have hwrites : r.writes s = (r.docs.take i).filterMap write ++
      docWrite r.kind id old :: (r.docs.drop (i + 1)).filterMap write := by
    have hdocs : r.docs = r.docs.take i ++ old :: r.docs.drop (i + 1) := by
      rw [← (List.getElem?_eq_some_iff.mp hold).2, ← List.drop_eq_getElem_cons hlt, List.take_append_drop]
    rw [MeiliRun.writes_docs hkind]
    conv_lhs => rw [hdocs]
    simp [write, hkeyOld]
  have hwrites' : (r.addDoc id data).writes s = (r.docs.take i).filterMap write ++
      docWrite r.kind id doc :: (r.docs.drop (i + 1)).filterMap write := by
    rw [MeiliRun.writes_docs (by rw [hadd]; exact hkind), hadd]
    simp [List.set_eq_take_append_cons_drop, hlt, write, hkeyDoc]
  have helsewhere := hok.elsewhere hkind hpos
  refine ⟨by rw [hadd], by rw [hadd], ⟨?_, ?_, ?_⟩, fun c => ?_, fun w' hw' => ?_⟩
  · rw [hadd]
    intro _ j doc' hdoc'
    rw [List.getElem?_set] at hdoc'
    split at hdoc'
    · rename_i hij
      subst hij
      obtain rfl := Option.some.inj hdoc'
      exact ⟨id, hkeyDoc, hpos⟩
    · exact hok.docs hkind j doc' hdoc'
  · rw [hadd]
    intro _ id' j hpos'
    by_cases hij : i = j
    · subst hij
      obtain ⟨doc', hdoc', hkey'⟩ := hok.pos hkind id' i hpos'
      rw [hold] at hdoc'
      cases hdoc'
      rw [hkeyOld] at hkey'
      cases hkey'
      exact ⟨doc, by simp [hlt], hkeyDoc⟩
    · obtain ⟨doc', hdoc', hkey'⟩ := hok.pos hkind id' j hpos'
      exact ⟨doc', by simpa [List.getElem?_set_ne hij] using hdoc', hkey'⟩
  · rw [hadd]
    intro hdelete
    rcases hkind with h | h <;> simp [h] at hdelete
  · rw [hwrites, hwrites']
    by_cases hpartial : r.kind = .runPartial
    · simp only [docWrite, hpartial, if_true, doc, doc_mergeData]
      exact applyAll_merge_again helsewhere _ _ _ c
    · simp only [docWrite, hpartial, if_false, doc]
      exact applyAll_replace_again helsewhere _ _ _ c
  · rw [hwrites'] at hw'
    rcases List.mem_append.mp hw' with hw' | hw'
    · exact Covers.of_mem (by simp [hwrites, hw'])
    rcases List.mem_cons.mp hw' with rfl | hw'
    swap
    · exact Covers.of_mem (by simp [hwrites, hw'])
    -- The merged document has the fields of the two it is made of.
    have hmem : docWrite r.kind id old ∈ r.writes s := by simp [hwrites]
    constructor
    · intro k hk
      exact ⟨docWrite r.kind id data, by simp, docWrite_touches.mpr (docWrite_touches.mp hk)⟩
    · intro k f hf
      by_cases hpartial : r.kind = .runPartial
      · simp only [docWrite, hpartial, if_true, doc, doc_mergeData, Write.Settles, overlay] at hf hmem ⊢
        obtain ⟨rfl, hf⟩ := hf
        by_cases hdata : data.doc f = none
        · rw [hdata, Option.none_or] at hf
          exact ⟨_, List.mem_append_left _ hmem, rfl, hf⟩
        · exact ⟨_, List.mem_append_right _ (List.mem_singleton.mpr rfl), rfl, hdata⟩
      · simp only [docWrite, hpartial, if_false, doc] at hf ⊢
        exact ⟨_, List.mem_append_right _ (List.mem_singleton.mpr rfl), hf⟩

theorem addDoc_joins (hok : Placed s r) (hkind : r.kind.OfDocs) (hkey : s.keyOf r.primaryKey data = some id) :
    Joins s r (r.addDoc id data) (docWrite r.kind id data) := by
  cases hpos : r.pos.lookup id with
  | none => exact addDoc_new hok hkind hkey hpos
  | some i => exact addDoc_again hok hkind hkey hpos

/-- After deletes of these documents they are gone. -/
theorem applyAll_deletes_of_mem {ids : List String} (h : id ∈ ids)
    (c : Documents String String (Option V)) : applyAll (ids.map Write.delete) c id = none := by
  induction ids generalizing c with
  | nil => simp at h
  | cons id' ids ih =>
    by_cases hlater : id ∈ ids
    · exact ih hlater _
    · obtain rfl : id = id' := (List.mem_cons.mp h).resolve_right hlater
      rw [List.map_cons, applyAll_cons, applyAll_of_not_touches]
      · simp [Write.apply]
      · intro w hw htouch
        obtain ⟨id', hid', rfl⟩ := List.mem_map.mp hw
        cases htouch
        exact hlater hid'

theorem addID_joins (hok : Placed s r) (hkind : r.kind = .runDelete) (id : String) :
    Joins s r (r.addID id) (.delete id) := by
  cases hpos : r.pos.lookup id with
  | some i =>
    have hadd : r.addID id = r := by simp [MeiliRun.addID, hpos]
    rw [hadd]
    refine ⟨rfl, rfl, hok, fun c => ?_, fun w' hw' => Covers.of_mem (by simp [hw'])⟩
    have hgone := applyAll_deletes_of_mem (hok.ids hkind id (by simp [hpos])) c
    simp only [MeiliRun.writes, hkind, Write.apply] at hgone ⊢
    exact (Function.update_eq_self_iff.mpr hgone.symm).symm
  | none =>
    have hadd : r.addID id = { r with pos := (id, r.ids.length) :: r.pos, ids := r.ids ++ [id] } := by
      simp [MeiliRun.addID, hpos]
    have hwrites : (r.addID id).writes s = r.writes s ++ [.delete id] := by simp [hadd, MeiliRun.writes, hkind]
    have hnot : ¬ r.kind.OfDocs := by simp [RunKind.OfDocs, hkind]
    refine ⟨by rw [hadd], by rw [hadd], ⟨?_, ?_, ?_⟩, fun c => by rw [hwrites]; simp, fun w' hw' => ?_⟩
    · rw [hadd]
      exact fun h => absurd h hnot
    · rw [hadd]
      exact fun h => absurd h hnot
    · rw [hadd]
      intro _ id' hid'
      by_cases hsame : id' = id
      · simp [hsame]
      · rw [List.lookup_cons, beq_false_of_ne hsame] at hid'
        simp [hok.ids hkind id' hid']
    · rw [hwrites] at hw'
      exact Covers.of_mem hw'

/-! ## Plans -/

/-- Adding an event to a run of this kind adds the write `w`. -/
structure Adds (s : MeiliSink V) (kind : RunKind) (primaryKey : String) (f : MeiliRun V → MeiliRun V)
    (w : MeiliWrite V) : Prop where
  fresh : (f { kind, primaryKey }).primaryKey = primaryKey ∧ Placed s (f { kind, primaryKey }) ∧
    (∀ c, applyAll ((f { kind, primaryKey }).writes s) c = w.apply c) ∧
    ∀ w' ∈ (f { kind, primaryKey }).writes s, Covers [w] w'
  joins : kind ≠ .runClear → ∀ r : MeiliRun V, r.kind = kind → r.primaryKey = primaryKey → Placed s r →
    Joins s r (f r) w

theorem placed_new (s : MeiliSink V) (kind : RunKind) (primaryKey : String) : Placed s { kind, primaryKey } :=
  ⟨fun _ i doc h => by simp at h, fun _ id i h => by simp at h, fun _ id h => by simp at h⟩

/-- An event that joins a run of its kind starts a run of its kind alike. -/
theorem Adds.of_joins (hkind : kind ≠ .runClear)
    (h : ∀ r : MeiliRun V, r.kind = kind → r.primaryKey = primaryKey → Placed s r → Joins s r (f r) w) :
    Adds s kind primaryKey f w := by
  have hnew := h { kind, primaryKey } rfl rfl (placed_new s kind primaryKey)
  have hempty : MeiliRun.writes s { kind, primaryKey } = [] := by
    cases kind with
    | runClear => exact absurd rfl hkind
    | runReplace | runPartial | runDelete => rfl
  exact ⟨⟨hnew.primaryKey, hnew.ok, fun c => by rw [hnew.same, hempty, applyAll_nil],
    fun w' hw' => by simpa [hempty] using hnew.covered w' hw'⟩, fun _ => h⟩

theorem addDoc_adds (hkind : kind.OfDocs) (hkey : s.keyOf primaryKey data = some id) (eventID : String) :
    Adds s kind primaryKey (fun r => { r.addDoc id data with eventIDs := r.eventIDs ++ [eventID] })
      (docWrite kind id data) := by
  refine Adds.of_joins (by rintro rfl; simp [RunKind.OfDocs] at hkind) fun r hr hrkey hok => ?_
  subst hr hrkey
  exact (addDoc_joins hok hkind hkey).eventIDs _

theorem addID_adds (s : MeiliSink V) (primaryKey id eventID : String) :
    Adds s .runDelete primaryKey (fun r => { r.addID id with eventIDs := r.eventIDs ++ [eventID] }) (.delete id) :=
  Adds.of_joins (by simp) fun _ hr _ hok => (addID_joins hok hr id).eventIDs _

theorem clear_adds (s : MeiliSink V) (primaryKey eventID : String) :
    Adds s .runClear primaryKey (fun r => { r with eventIDs := r.eventIDs ++ [eventID] }) .clear :=
  ⟨⟨rfl, ⟨(placed_new s .runClear primaryKey).docs, (placed_new s .runClear primaryKey).pos, by simp⟩, fun _ => rfl,
    fun _ hw' => Covers.of_mem hw'⟩, fun h => absurd rfl h⟩

theorem MeiliSink.eventWrites_append (s : MeiliSink V) (index : String) (events events' : List (CDCEvent V)) :
    s.eventWrites index (events ++ events') = s.eventWrites index events ++ s.eventWrites index events' := by
  simp [MeiliSink.eventWrites]

theorem MeiliSink.eventWrites_of_eq
    (h : s.eventWrite event = some (index, w)) : s.eventWrites index [event] = [w] := by
  simp [MeiliSink.eventWrites, h]

theorem MeiliSink.eventWrites_of_ne {index' : String}
    (h : s.eventWrite event = some (index, w)) (hne : index ≠ index') : s.eventWrites index' [event] = [] := by
  simp [MeiliSink.eventWrites, h, hne]

/-- The plan of some events: its runs are consistent and keyed by their index's
primary key, they do to every index what the events do, and write nowhere else. -/
structure PlanOk (s : MeiliSink V) (keys : String → String) (events : List (CDCEvent V)) (p : BatchPlan V) : Prop where
  runs : ∀ index, ∀ r ∈ (p.runs index).getD [], Placed s r ∧ r.primaryKey = keys index
  same : ∀ index c, applyAll (p.writes s index) c = applyAll (s.eventWrites index events) c
  covered : ∀ index, ∀ w ∈ p.writes s index, Covers (s.eventWrites index events) w

theorem PlanOk.nil (s : MeiliSink V) (keys : String → String) : PlanOk s keys [] {} :=
  ⟨fun _ _ h => by simp at h, fun _ _ => rfl, fun _ _ h => by simp [BatchPlan.writes] at h⟩

theorem PlanOk.skip (hwrite : s.eventWrite event = none) (h : PlanOk s keys events p) :
    PlanOk s keys (events ++ [event]) p := by
  have hwrites (index : String) : s.eventWrites index (events ++ [event]) = s.eventWrites index events := by
    simp [MeiliSink.eventWrites, hwrite]
  exact ⟨h.runs, fun index c => by rw [hwrites, h.same], fun index w hw => by rw [hwrites]; exact h.covered index w hw⟩

/-- The runs `before` and `last` do to an index what the plan does, and then the
write `w`. -/
structure Extends (s : MeiliSink V) (keys : String → String) (p : BatchPlan V) (index : String) (w : MeiliWrite V)
    (before : List (MeiliRun V)) (last : MeiliRun V) : Prop where
  runs : ∀ r ∈ before ++ [last], Placed s r ∧ r.primaryKey = keys index
  same : ∀ c, applyAll (last.writes s) (applyAll (before.flatMap (MeiliRun.writes s)) c) =
    w.apply (applyAll (p.writes s index) c)
  covered : ∀ w' ∈ (before ++ [last]).flatMap (MeiliRun.writes s), Covers (p.writes s index ++ [w]) w'

/-- The runs of an index after one more event: a new run was started for it, or
the last run was joined by it. -/
theorem inRun_extends (hadds : Adds s kind (keys index) f w)
    (hruns : ∀ r ∈ (p.runs index).getD [], Placed s r ∧ r.primaryKey = keys index) :
    ∃ before last, (p.inRun index kind (keys index) f).runs index = some (before ++ [last]) ∧
      Extends s keys p index w before last := by
  let runs := (p.runs index).getD []
  let new := f { kind, primaryKey := keys index }
  have hstarts : Extends s keys p index w runs new := by
    obtain ⟨hkey, hok, hsame, hcovered⟩ := hadds.fresh
    refine ⟨fun r hr => ?_, fun c => hsame _, fun w' hw' => ?_⟩
    · rcases List.mem_append.mp hr with hr | hr
      · exact hruns r hr
      · rw [List.mem_singleton.mp hr]
        exact ⟨hok, hkey⟩
    · rw [List.flatMap_append, List.flatMap_singleton] at hw'
      rcases List.mem_append.mp hw' with hw' | hw'
      · exact Covers.of_mem (List.mem_append_left _ hw')
      · exact (hcovered w' hw').mono (by simp)
  cases hlast : runs.getLast? with
  | none => exact ⟨runs, new, by simp [BatchPlan.inRun, runs, new, hlast] , hstarts⟩
  | some r =>
    by_cases hjoin : r.kind = kind ∧ kind ≠ .runClear
    · refine ⟨runs.dropLast, f r, by simp [BatchPlan.inRun, runs, hlast, hjoin], ?_⟩
      have hsplit : runs.dropLast ++ [r] = runs := List.dropLast_append_getLast? r hlast
      have hr := hruns r (List.mem_of_getLast? hlast)
      have hadd := hadds.joins hjoin.2 r hjoin.1 hr.2 hr.1
      have hwrites : p.writes s index = runs.dropLast.flatMap (MeiliRun.writes s) ++ r.writes s := by
        rw [BatchPlan.writes, ← List.flatMap_singleton (MeiliRun.writes s) r, ← List.flatMap_append, hsplit]
      refine ⟨fun r' hr' => ?_, fun c => ?_, fun w' hw' => ?_⟩
      · rcases List.mem_append.mp hr' with hr' | hr'
        · exact hruns r' ((List.dropLast_sublist runs).subset hr')
        · rw [List.mem_singleton.mp hr']
          exact ⟨hadd.ok, hadd.primaryKey.trans hr.2⟩
      · rw [hadd.same, hwrites, applyAll_append]
      · rw [List.flatMap_append, List.flatMap_singleton] at hw'
        rcases List.mem_append.mp hw' with hw' | hw'
        · exact Covers.of_mem (by simp [hwrites, hw'])
        · exact (hadd.covered w' hw').mono (by simp [hwrites])
    · exact ⟨runs, new, by simp [BatchPlan.inRun, runs, new, hlast, hjoin], hstarts⟩

theorem PlanOk.inRun
    (hadds : Adds s kind (keys index) f w) (hwrite : s.eventWrite event = some (index, w)) (h : PlanOk s keys events p) :
    PlanOk s keys (events ++ [event]) (p.inRun index kind (keys index) f) := by
  have hothers {index' : String} (hne : index' ≠ index) :
      (p.inRun index kind (keys index) f).runs index' = p.runs index' ∧
        s.eventWrites index' (events ++ [event]) = s.eventWrites index' events := by
    refine ⟨Function.update_of_ne hne _ _, ?_⟩
    rw [MeiliSink.eventWrites_append, MeiliSink.eventWrites_of_ne hwrite (Ne.symm hne), List.append_nil]
  have hevents : s.eventWrites index (events ++ [event]) = s.eventWrites index events ++ [w] := by
    rw [MeiliSink.eventWrites_append, MeiliSink.eventWrites_of_eq hwrite]
  obtain ⟨before, last, hruns, hextends⟩ := inRun_extends hadds (h.runs index)
  refine ⟨fun index' r hr => ?_, fun index' c => ?_, fun index' w' hw' => ?_⟩
  · by_cases hindex : index' = index
    · subst hindex
      rw [hruns] at hr
      exact hextends.runs r hr
    · rw [(hothers hindex).1] at hr
      exact h.runs index' r hr
  · by_cases hindex : index' = index
    · subst hindex
      have hsame := hextends.same c
      rw [h.same] at hsame
      simpa [BatchPlan.writes, hruns, hevents] using hsame
    · rw [BatchPlan.writes, (hothers hindex).1, (hothers hindex).2]
      exact h.same index' c
  · by_cases hindex : index' = index
    · subst hindex
      rw [BatchPlan.writes, hruns] at hw'
      rw [hevents]
      refine Covers.trans (fun w'' hw'' => ?_) (hextends.covered w' hw')
      rcases List.mem_append.mp hw'' with hw'' | hw''
      · exact (h.covered index' w'' hw'').mono (by simp)
      · exact Covers.of_mem (List.mem_append_right _ hw'')
    · rw [BatchPlan.writes, (hothers hindex).1] at hw'
      rw [(hothers hindex).2]
      exact h.covered index' w' hw'

/-- An event adds its write to a run of its index, or writes nothing and leaves the
plan as it is. -/
theorem planEvent_cases {p' : BatchPlan V} (h : s.planEvent p event = .ok p') :
    (s.eventWrite event = none ∧ p' = p) ∨
      ∃ index kind f w, s.config.getIndex event.schema event.table = some index ∧
        Adds s kind (s.config.getPrimaryKey event.schema event.table) f w ∧ s.eventWrite event = some (index, w) ∧
        p' = p.inRun index kind (s.config.getPrimaryKey event.schema event.table) f := by
  unfold MeiliSink.planEvent at h
  cases hindex : s.config.getIndex event.schema event.table with
  | none =>
    simp only [hindex, Except.ok.injEq] at h
    exact .inl ⟨by simp [MeiliSink.eventWrite, hindex], h.symm⟩
  | some index =>
    simp only [hindex] at h
    cases hop : event.operation with
    | insert | read | update =>
      simp only [hop] at h
      cases hdata : event.newData with
      | none =>
        simp only [hdata, Except.ok.injEq] at h
        exact .inl ⟨by simp [MeiliSink.eventWrite, hindex, hop, hdata], h.symm⟩
      | some data =>
        simp only [hdata] at h
        cases hid : s.keyOf (s.config.getPrimaryKey event.schema event.table) data with
        | none => rw [hid] at h; cases h
        | some id =>
          simp only [hid, Except.ok.injEq] at h
          exact .inr ⟨index, _, _, _, rfl, addDoc_adds (by simp [RunKind.OfDocs]) hid event.id,
            by simp [MeiliSink.eventWrite, hindex, hop, hdata, hid, docWrite], h.symm⟩
    | delete =>
      simp only [hop] at h
      cases hdata : event.oldData with
      | none =>
        simp only [hdata, Except.ok.injEq] at h
        exact .inl ⟨by simp [MeiliSink.eventWrite, hindex, hop, hdata], h.symm⟩
      | some data =>
        simp only [hdata] at h
        cases hid : s.keyOf (s.config.getPrimaryKey event.schema event.table) data with
        | none =>
          simp only [hid, Except.ok.injEq] at h
          exact .inl ⟨by simp [MeiliSink.eventWrite, hindex, hop, hdata, hid], h.symm⟩
        | some id =>
          simp only [hid, Except.ok.injEq] at h
          exact .inr ⟨index, _, _, _, rfl, addID_adds s _ id event.id,
            by simp [MeiliSink.eventWrite, hindex, hop, hdata, hid], h.symm⟩
    | truncate =>
      simp only [hop, Except.ok.injEq] at h
      exact .inr ⟨index, _, _, _, rfl, clear_adds s _ event.id, by simp [MeiliSink.eventWrite, hindex, hop], h.symm⟩

/-- Only a document without its key is refused. -/
theorem planEvent_error {err : Err} (h : s.planEvent p event = .error err) : s.eventWrite event = none := by
  unfold MeiliSink.planEvent at h
  cases hindex : s.config.getIndex event.schema event.table with
  | none => simp [hindex] at h
  | some index =>
    simp only [hindex] at h
    cases hop : event.operation with
    | insert | read | update =>
      simp only [hop] at h
      cases hdata : event.newData with
      | none => simp [hdata] at h
      | some data =>
        simp only [hdata] at h
        cases hid : s.keyOf (s.config.getPrimaryKey event.schema event.table) data with
        | none => simp [MeiliSink.eventWrite, hindex, hop, hdata, hid]
        | some id => simp [hid] at h
    | delete =>
      simp only [hop] at h
      repeat' split at h
      all_goals cases h
    | truncate => simp [hop] at h

/-- The tables of an index have its primary key. -/
def MeilisearchSinkConfig.KeyedBy (c : MeilisearchSinkConfig) (keys : String → String) : Prop :=
  ∀ schema table index, c.getIndex schema table = some index → c.getPrimaryKey schema table = keys index

theorem PlanOk.planEvent (hkeys : s.config.KeyedBy keys) {p' : BatchPlan V} (h : PlanOk s keys events p)
    (hplan : s.planEvent p event = .ok p') : PlanOk s keys (events ++ [event]) p' := by
  rcases planEvent_cases hplan with ⟨hwrite, rfl⟩ | ⟨index, kind, f, w, hindex, hadds, hwrite, rfl⟩
  · exact h.skip hwrite
  · rw [hkeys _ _ _ hindex] at hadds ⊢
    exact h.inRun hadds hwrite

/-- **Plans, event by event**: what holds of the empty plan and is kept by every
event holds of a batch and its plan. -/
theorem MeiliSink.plan_induction {P : List (CDCEvent V) → BatchPlan V → Prop} (hnil : P [] {})
    (hevent : ∀ events p event p', P events p → s.planEvent p event = .ok p' → P (events ++ [event]) p')
    (h : s.plan events = .ok p) : P events p := by
  suffices hfrom : ∀ events done p', P done p' → events.foldlM s.planEvent p' = .ok p → P (done ++ events) p by
    simpa using hfrom events [] {} hnil h
  intro events
  induction events with
  | nil =>
    intro done p' hdone hplan
    cases hplan
    simpa using hdone
  | cons event events ih =>
    intro done p' hdone hplan
    rw [List.foldlM_cons] at hplan
    cases hstep : s.planEvent p' event with
    | error err => rw [hstep] at hplan; cases hplan
    | ok p₁ =>
      rw [hstep] at hplan
      simpa using ih (done ++ [event]) p₁ (hevent done p' event p₁ hdone hstep) hplan

theorem MeiliSink.plan_ok (hkeys : s.config.KeyedBy keys) (h : s.plan events = .ok p) : PlanOk s keys events p :=
  MeiliSink.plan_induction (PlanOk.nil s keys) (fun _ _ _ _ hok hevent => hok.planEvent hkeys hevent) h

/-! ## Settings that agree -/

theorem mem_of_lookup {A B : Type} [BEq A] [LawfulBEq A] {l : List (A × B)} {a : A} {b : B} (h : l.lookup a = some b) :
    (a, b) ∈ l := by
  obtain ⟨l₁, l₂, rfl, -⟩ := List.lookup_eq_some_iff.mp h
  simp

theorem lookup_of_indexSettingsLoop {tables : List (String × MeiliTableConfig)}
    {out out' : List (String × MeiliIndexSettings × String)}
    (h : MeilisearchSinkConfig.indexSettingsLoop tables out = .ok out') :
    (∀ index found, out.lookup index = some found → out'.lookup index = some found) ∧
      ∀ entry ∈ tables, entry.2.index ≠ "" →
        ∃ owner, out'.lookup entry.2.index = some (MeilisearchSinkConfig.settingsOf entry.2, owner) := by
  induction tables generalizing out with
  | nil =>
    cases h
    exact ⟨fun _ _ h => h, by simp⟩
  | cons entry tables ih =>
    obtain ⟨name, tc⟩ := entry
    unfold MeilisearchSinkConfig.indexSettingsLoop at h
    split at h
    · rename_i hempty
      obtain ⟨hkept, hentries⟩ := ih h
      exact ⟨hkept, fun e he hindex => (List.mem_cons.mp he).elim
        (fun he => absurd (by rw [he]; exact hempty) hindex) fun he => hentries e he hindex⟩
    · split at h
      · rename_i prev owner hfound
        split at h
        · rename_i hsame
          obtain ⟨hkept, hentries⟩ := ih h
          refine ⟨hkept, fun e he hindex => (List.mem_cons.mp he).elim (fun he => ?_) fun he => hentries e he hindex⟩
          rw [he]
          exact ⟨owner, by rw [← hsame]; exact hkept _ _ hfound⟩
        · cases h
      · rename_i hnew
        obtain ⟨hkept, hentries⟩ := ih h
        refine ⟨fun index found hfound => hkept index found ?_, fun e he hindex => (List.mem_cons.mp he).elim
          (fun he => ⟨name, ?_⟩) fun he => hentries e he hindex⟩
        · rw [List.lookup_append, hfound, Option.some_or]
        · rw [he]
          exact hkept _ _ (by simp [List.lookup_append, hnew])

/-- `IndexSettings` accepts a configuration only when the tables of an index
have one primary key. -/
theorem MeilisearchSinkConfig.keyedBy_of_indexSettings {c : MeilisearchSinkConfig}
    {settings : List (String × MeiliIndexSettings)} (h : c.indexSettings = .ok settings) :
    ∃ keys, c.KeyedBy keys := by
  cases hloop : indexSettingsLoop c.tables [] with
  | error err => simp [indexSettings, hloop, Except.map] at h
  | ok out =>
    obtain ⟨-, hentries⟩ := lookup_of_indexSettingsLoop hloop
    refine ⟨fun index => ((out.lookup index).map (·.1.primaryKey)).getD "", fun schema table index hindex => ?_⟩
    obtain ⟨name, tc, htc, hmem, hne, rfl⟩ : ∃ name tc, c.table schema table = some tc ∧ (name, tc) ∈ c.tables ∧
        tc.index ≠ "" ∧ tc.index = index := by
      unfold getIndex at hindex
      unfold MeilisearchSinkConfig.table
      cases hfull : c.tables.lookup (schema ++ "." ++ table) with
      | some tc =>
        simp only [hfull, Option.ite_none_right_eq_some, Option.some.injEq] at hindex
        exact ⟨_, tc, rfl, mem_of_lookup hfull, hindex.1, hindex.2⟩
      | none =>
        cases hbare : c.tables.lookup table with
        | some tc =>
          simp only [hfull, hbare, Option.ite_none_right_eq_some, Option.some.injEq] at hindex
          exact ⟨_, tc, rfl, mem_of_lookup hbare, hindex.1, hindex.2⟩
        | none => simp [hfull, hbare] at hindex
    obtain ⟨owner, hlookup⟩ := hentries (name, tc) hmem hne
    simp only [getPrimaryKey, htc, hlookup, settingsOf, Option.map_some, Option.getD_some]
    by_cases hdefault : tc.primaryKey = "" <;> simp [hdefault]

/-! ## The batch and its events -/

/-- An event as a batch of its own. -/
def MeiliSink.applyAlone (s : MeiliSink V) (c : Indexes V) (event : CDCEvent V) : Indexes V :=
  match s.plan [event] with
  | .ok p => p.apply s c
  | .error _ => c

theorem MeiliSink.plan_apply (hkeys : s.config.KeyedBy keys) (hplan : s.plan events = .ok p) (c : Indexes V) :
    p.apply s c = events.foldl s.applyEvent c := by
  funext index
  rw [BatchPlan.apply, (MeiliSink.plan_ok hkeys hplan).same, s.applyEvent_eq]

theorem MeiliSink.applyAlone_eq (hkeys : s.config.KeyedBy keys)
    (c : Indexes V) (event : CDCEvent V) : s.applyAlone c event = s.applyEvent c event := by
  unfold MeiliSink.applyAlone
  cases hplan : s.plan [event] with
  | ok p => exact MeiliSink.plan_apply hkeys hplan c
  | error err =>
    have hevent : s.planEvent {} event = .error err := by
      cases hevent : s.planEvent {} event with
      | error err' => simpa [MeiliSink.plan, hevent, bind, Except.bind] using hplan
      | ok p => simp [MeiliSink.plan, hevent, bind, Except.bind, pure, Except.pure] at hplan
    simp [MeiliSink.applyEvent, planEvent_error hevent]

/-- **A batch plan does what its events do.** For every configuration whose tables
agree on the settings of the indexes they share, and every batch that has a
plan: the tasks of the plan leave every index with the documents that its
events leave one at a time, each taken as a write of its own or as a batch of
its own. -/
theorem plan_eq_one_by_one (s : MeiliSink V) {settings : List (String × MeiliIndexSettings)}
    (hsettings : s.config.indexSettings = .ok settings) {events : List (CDCEvent V)} {p : BatchPlan V}
    (hplan : s.plan events = .ok p) (c : Indexes V) :
    p.apply s c = events.foldl s.applyEvent c ∧ p.apply s c = events.foldl s.applyAlone c := by
  obtain ⟨keys, hkeys⟩ := MeilisearchSinkConfig.keyedBy_of_indexSettings hsettings
  have halone : s.applyAlone = s.applyEvent := funext fun c => funext fun event => MeiliSink.applyAlone_eq hkeys c event
  rw [halone]
  exact ⟨MeiliSink.plan_apply hkeys hplan c, MeiliSink.plan_apply hkeys hplan c⟩

/-- Two tables that share an index. -/
def sharedIndex : MeiliSink ℕ where
  config := { tables := [("public.users", { index := "people" }), ("staff", { index := "people", primaryKey := "id" })] }
  sprint n := toString n

def tableChange (id table : String) (operation : Operation) (oldData newData : Option (Data ℕ)) : CDCEvent ℕ :=
  { bareEvent (V := ℕ) id with operation, table, oldData, newData }

def sharedBatch : List (CDCEvent ℕ) :=
  [tableChange "0/1" "users" .insert none (some [("id", some 1), ("name", some 1)]),
    tableChange "0/2" "users" .update none (some [("id", some 1), ("name", some 2)]),
    tableChange "0/3" "staff" .update none (some [("id", some 1), ("age", some 3)]),
    tableChange "0/4" "users" .delete (some [("id", some 2)]) none,
    tableChange "0/5" "users" .read none (some [("id", some 2), ("name", some 1)]),
    tableChange "0/6" "users" .read none (some [("id", some 2), ("name", some 2)])]

theorem plan_eq_one_by_one_shared : ∃ p, sharedIndex.plan sharedBatch = .ok p ∧
    ∀ c, p.apply sharedIndex c = sharedBatch.foldl sharedIndex.applyEvent c ∧
      p.apply sharedIndex c = sharedBatch.foldl sharedIndex.applyAlone c := by
  cases hsettings : sharedIndex.config.indexSettings with
  | error err =>
    have haccepted : sharedIndex.config.indexSettings.isOk = true := by decide
    rw [hsettings] at haccepted
    cases haccepted
  | ok settings =>
    cases hplan : sharedIndex.plan sharedBatch with
    | error err =>
      have hplanned : (sharedIndex.plan sharedBatch).isOk = true := by decide +kernel
      rw [hplan] at hplanned
      cases hplanned
    | ok p => exact ⟨p, rfl, plan_eq_one_by_one sharedIndex hsettings hplan⟩

end Gtc
