/-
Triage of the dead-letter queue: `Manager.Retry`, `RetryAll` and `Discard`,
interleaved on one store.

`Retry` reads the entry, gives the event to its sink, and on failure parks the
entry it has read. Nothing ties that write to the entry still being there: a
`Discard` between the two is undone (`discard_undone`). Where no failed retry
writes back an entry it read before the `Discard` removed it, a discarded entry
stays discarded (`discarded_stays_discarded`).
-/
import Gtc.Sink.DeadLetterStore

namespace Gtc

open Lib

/-! ## The calls -/

/-- `redisStore.List`. An entry that is in the index and not in the hash is
skipped. -/
def Store.list (limit : Int) : StoreM (Except Err (List (DeadLetterEntry GoValue))) := do
  match ← command (.zrevrange (if limit > 0 then limit - 1 else -1)) with
  | .error err => return .error (storeErr "dlq: list index: " err)
  | .ok [] => return .ok []
  | .ok ids =>
    match ← command (.hmget ids) with
    | .error err => return .error (storeErr "dlq: fetch entries: " err)
    | .ok values => return .ok (values.filterMap (·.map DeadLetterEntry.unmarshal))

/-- `domain.RetryResult`. -/
structure RetryResult where
  retried : ℕ := 0
  succeeded : ℕ := 0
  failed : ℕ := 0
deriving DecidableEq, Repr

namespace Manager

section Calls

variable (active : String → Bool) (maxEntries : ℤ)

/-- `Manager.Retry`, with the sinks that are active in this instance. A refused
event is parked again; when that fails it is only logged. -/
def retry (id : String) : StoreM (Option Err) := do
  match ← Store.get id with
  | .error err => return some err
  | .ok entry =>
    if active entry.sinkName then
      match ← command (.process entry.sinkName entry.event) with
      | some procErr =>
        let now ← command .now
        let _ ← Store.park maxEntries
          { entry with attempts := entry.attempts + 1, error := procErr.error, lastFailedAt := now }
        return some (.wrap ("retry failed: " ++ procErr.error) procErr)
      | none =>
        match ← Store.remove id with
        | some err => return some (.wrap ("retry succeeded but entry removal failed: " ++ err.error) err)
        | none => return none
    else return some (.new ("sink " ++ goQuote entry.sinkName ++ " is not active in this instance"))

/-- The loop of `Manager.RetryAll`. -/
def retryEach : List (DeadLetterEntry GoValue) → RetryResult → StoreM (RetryResult × Option Err)
  | [], result => return (result, none)
  | entry :: entries, result => do
    match ← command .ctxErr with
    | some err => return (result, some err)
    | none =>
      let result := { result with retried := result.retried + 1 }
      match ← retry active maxEntries entry.id with
      | some _ => retryEach entries { result with failed := result.failed + 1 }
      | none => retryEach entries { result with succeeded := result.succeeded + 1 }

def retryAll : StoreM (RetryResult × Option Err) := do
  match ← Store.list 0 with
  | .error err => return ({}, some err)
  | .ok entries => retryEach active maxEntries entries {}

def discard (id : String) : StoreM (Option Err) := do
  match ← Store.remove id with
  | some err => return some err
  | none => return none

end Calls

end Manager

/-- The calls that use the store: triage, and the `Park` of a delivery. -/
inductive TriageCall where
  | retry (id : String)
  | retryAll
  | discard (id : String)
  | park (entry : DeadLetterEntry GoValue)

def TriageCall.program (active : String → Bool) (maxEntries : ℤ) : TriageCall → StoreM (Option Err)
  | .retry id => Manager.retry active maxEntries id
  | .retryAll => do
    let (_, err) ← Manager.retryAll active maxEntries
    return err
  | .discard id => Manager.discard id
  | .park entry => Store.park maxEntries entry

/-- Alone on the store, a retry does what `RedisStore.retry` says. -/
theorem retry_alone (active : String → Bool) (process : String → CDCEvent GoValue → Option Err) (now : ℕ)
    {s : RedisStore} (hs : s.Consistent) (id : String) :
    runWith (RedisStore.serve process now) (Manager.retry active s.maxEntries id) s =
      s.retry (fun name => if active name then some (process name) else none) now id := by
  rw [Manager.retry, runWith_bind, get_alone, RedisStore.retry]
  cases s.get id with
  | error err => rfl
  | ok entry =>
    dsimp only
    by_cases hactive : active entry.sinkName = true
    · rw [if_pos hactive, if_pos hactive, runWith_command]
      dsimp only [RedisStore.serve]
      cases process entry.sinkName entry.event with
      | some procErr =>
        dsimp only
        rw [runWith_command, runWith_bind]
        dsimp only [RedisStore.serve]
        rw [park_alone]
        cases RedisStore.park s _ <;> rfl
      | none =>
        dsimp only
        rw [runWith_bind, remove_alone process now hs]
        cases s.remove id <;> rfl
    · rw [if_neg hactive, if_neg hactive]
      rfl

/-! ## What a call has done when it writes or removes an entry -/

def isGet : storeSig.Event → Bool
  | ⟨.hget _, _⟩ => true
  | _ => false

/-- The last entry the call has read is one with this id. -/
def HasRead (id : String) (h : List storeSig.Event) : Prop :=
  ∃ before field data after, h = before ++ ⟨.hget field, .ok (some data)⟩ :: after ∧ data.id = id ∧
    ∀ x ∈ after, isGet x = false

theorem HasRead.snoc {id : String} {h : List storeSig.Event} (hread : HasRead id h) {x : storeSig.Event}
    (hx : isGet x = false) : HasRead id (h ++ [x]) := by
  obtain ⟨before, field, data, after, rfl, hid, hafter⟩ := hread
  refine ⟨before, field, data, after ++ [x], by simp, hid, fun y hy => ?_⟩
  rcases List.mem_append.mp hy with hy | hy
  · exact hafter y hy
  · rw [List.mem_singleton.mp hy]; exact hx

/-- The call has read an entry under this id, and its sink, which is active, has
accepted the event. -/
def Accepted (active : String → Bool) (id : String) (h : List storeSig.Event) : Prop :=
  ∃ before data, h = before ++ [⟨.hget id, .ok (some data)⟩, ⟨.process data.sinkName data.unmarshal.event, none⟩] ∧
    active data.sinkName = true

/-- A write is of the entry the call parks, or of the one it has read, and under
that entry's id; a call removes the entry it is a `Discard` of, or one its sink
has accepted. -/
def Warranted (active : String → Bool) (call : TriageCall) (h : List storeSig.Event) : StoreOp → Prop
  | .execPark id data _ => data.id = id ∧ ((∃ entry, call = .park entry ∧ entry.id = id) ∨ HasRead id h)
  | .execRemove id => call = .discard id ∨ Accepted active id h
  | _ => True

section Warranted

variable {active : String → Bool} {maxEntries : ℤ} {call : TriageCall} {h : List storeSig.Event}

theorem write_warranted {entry : DeadLetterEntry GoValue} (hw : call = .park entry ∨ HasRead entry.id h) :
    Obeys (Warranted active call) (Store.write entry) h fun _ _ => True := by
  unfold Store.write
  split
  · trivial
  · next data hdata =>
    obtain ⟨event, -, rfl⟩ := DeadLetterEntry.marshal_eq_ok hdata
    refine ⟨⟨rfl, hw.imp_left fun hcall => ⟨entry, hcall, rfl⟩⟩, fun r => ?_⟩
    cases r <;> trivial

theorem park_warranted {entry : DeadLetterEntry GoValue} (hw : call = .park entry ∨ HasRead entry.id h) :
    Obeys (Warranted active call) (Store.park maxEntries entry) h fun _ _ => True := by
  refine ⟨trivial, fun found => ?_⟩
  have hw₁ := hw.imp_right fun hread => hread.snoc (x := ⟨.hexists entry.id, found⟩) rfl
  cases found with
  | error err => trivial
  | ok found =>
    change Obeys _ (if _ then _ else _) _ _
    split
    · refine ⟨trivial, fun size => ?_⟩
      have hw₂ := hw₁.imp_right fun hread => hread.snoc (x := ⟨.zcard, size⟩) rfl
      cases size with
      | error err => trivial
      | ok size =>
        change Obeys _ (if _ then _ else _) _ _
        split
        · trivial
        · exact write_warranted hw₂
    · exact write_warranted hw₁

theorem remove_warranted {id : String} (hid : call = .discard id ∨ Accepted active id h) :
    Obeys (Warranted active call) (Store.remove id) h fun _ _ => True := by
  refine ⟨hid, fun deleted => ?_⟩
  cases deleted <;> trivial

theorem retry_warranted (id : String) :
    Obeys (Warranted active call) (Manager.retry active maxEntries id) h fun _ _ => True := by
  refine ⟨trivial, fun answer => ?_⟩
  rcases answer with err | _ | data
  · trivial
  · trivial
  change Obeys _ (if _ then _ else _) _ _
  split
  · rename_i hactive
    refine ⟨trivial, fun procErr => ?_⟩
    cases procErr with
    | none =>
      refine (remove_warranted (.inr ⟨h, data, by simp; rfl, hactive⟩)).bind fun h r _ => ?_
      cases r <;> trivial
    | some procErr =>
      refine ⟨trivial, fun now => ?_⟩
      refine (park_warranted (.inr ?_)).bind fun h r _ => trivial
      exact HasRead.snoc (HasRead.snoc ⟨h, id, data, [], rfl, rfl, by simp⟩ rfl) rfl
  · trivial

theorem retryEach_warranted (entries : List (DeadLetterEntry GoValue)) (result : RetryResult) (h : List storeSig.Event) :
    Obeys (Warranted active call) (Manager.retryEach active maxEntries entries result) h fun _ _ => True := by
  induction entries generalizing result h with
  | nil => trivial
  | cons entry entries ih =>
    refine ⟨trivial, fun ctxErr => ?_⟩
    cases ctxErr with
    | some err => trivial
    | none =>
      refine (retry_warranted entry.id).bind fun h r _ => ?_
      cases r <;> exact ih _ h

/-- **What every call does, it has a reason for.** -/
theorem triage_warranted (call : TriageCall) :
    Obeys (Warranted active call) (call.program active maxEntries) h fun _ _ => True := by
  cases call with
  | retry id => exact retry_warranted id
  | discard id =>
    refine (remove_warranted (.inl rfl)).bind fun h r _ => ?_
    cases r <;> trivial
  | park entry => exact park_warranted (.inl rfl)
  | retryAll =>
    have hall : Obeys (Warranted active .retryAll) (Manager.retryAll active maxEntries) h fun _ _ => True := by
      refine ⟨trivial, fun ids => ?_⟩
      rcases ids with err | _ | ⟨id, ids⟩
      · trivial
      · trivial
      refine ⟨trivial, fun values => ?_⟩
      cases values with
      | error err => trivial
      | ok values => exact retryEach_warranted _ _ _
    exact hall.bind fun h r _ => trivial

/-- Which call an operation of a run is of, and what it had done before. -/
theorem warranted_of_runs {calls : List TriageCall} {s s' : RedisStore} {t₁ t₂ : List (ℕ × storeSig.Event)} {i : ℕ}
    {x : storeSig.Event} {ps' : List (StoreM (Option Err))}
    (hrun : Runs storeStep (calls.map (·.program active maxEntries)) s (t₁ ++ (i, x) :: t₂) ps' s') :
    ∃ call, calls[i]? = some call ∧ Warranted active call (ofIndex i t₁) x.1 := by
  obtain ⟨qs, k, m, m', hrun₁, hasks, -, -⟩ := hrun.at
  have hlt : i < calls.length := by
    have hlt := (List.getElem?_eq_some_iff.mp hasks).1
    rwa [hrun₁.length, List.length_map] at hlt
  have hcall : calls[i]? = some calls[i] := List.getElem?_eq_getElem hlt
  obtain ⟨p', hp', hsteps⟩ := hrun₁.steps i (calls[i].program active maxEntries) (by rw [List.getElem?_map, hcall]; rfl)
  rw [hasks] at hp'
  cases hp'
  have hobeys := @triage_warranted active maxEntries [] calls[i]
  exact ⟨_, hcall, hobeys.of_steps hsteps⟩

end Warranted

/-! ## Entries under their own ids -/

/-- Every entry is stored under its own id. -/
def RedisStore.OwnIDs (s : RedisStore) : Prop := ∀ member ∈ s.entries, member.2.id = member.1

theorem ownIDs_step {s s' : RedisStore} (hs : s.OwnIDs) {x : storeSig.Event}
    (hx : ∀ field data score r, x = ⟨.execPark field data score, r⟩ → data.id = field) (h : storeStep s x s') :
    s'.OwnIDs := by
  rcases storeStep_cases h with rfl | ⟨field, data, score, r, rfl, -, rfl⟩ | ⟨field, r, -, -, rfl⟩
  · exact hs
  · intro member hmember
    rcases List.mem_cons.mp hmember with rfl | hmember
    · exact hx field data score r rfl
    · exact hs member (List.mem_filter.mp hmember).1
  · exact fun member hmember => hs member (List.mem_filter.mp hmember).1

theorem RedisStore.OwnIDs.of_lookup {s : RedisStore} (hs : s.OwnIDs) {id : String} {data : DeadLetterEntry JSONText}
    (h : s.entries.lookup id = some data) : data.id = id := by
  obtain ⟨l₁, l₂, hentries, -⟩ := List.lookup_eq_some_iff.mp h
  exact hs (id, data) (by rw [hentries]; simp)

/-- Call `i` reads the entry `id` in `t₁`, and in `t₂` writes the entry it has read. -/
def WritesBack (i : ℕ) (id : String) (t₁ t₂ : List (ℕ × storeSig.Event)) : Prop :=
  ∃ before data after before' x after', ofIndex i t₁ = before ++ ⟨.hget id, .ok (some data)⟩ :: after ∧
    ofIndex i t₂ = before' ++ x :: after' ∧ writtenID x = some id ∧ ∀ y ∈ after ++ before', isGet y = false

/-! ## After a `Discard` -/

section Discarded

variable {active : String → Bool} {maxEntries : ℤ} {calls : List TriageCall} {ps ps' : List (StoreM (Option Err))}
  {s s' : RedisStore} {id : String}

theorem ownIDs_of_runs (hown : s.OwnIDs) {t : List (ℕ × storeSig.Event)}
    (hrun : Runs storeStep (calls.map (·.program active maxEntries)) s t ps' s') : s'.OwnIDs := by
  refine hrun.invariant (fun y hy m m' hm hstep => ownIDs_step hm ?_ hstep) hown
  rintro field data score r hx
  obtain ⟨t₁, t₂, rfl⟩ := List.append_of_mem hy
  obtain ⟨call, -, hwarranted⟩ := warranted_of_runs hrun
  rw [hx] at hwarranted
  exact hwarranted.1

theorem absent_step {x : storeSig.Event} (hs : id ∉ s.ids) (hx : writtenID x ≠ some id) (h : storeStep s x s') :
    id ∉ s'.ids := by
  rcases storeStep_cases h with rfl | ⟨field, data, score, r, rfl, hdone, rfl⟩ | ⟨field, r, -, -, rfl⟩
  · exact hs
  · rw [ids_put]
    intro hmem
    rcases List.mem_cons.mp hmem with rfl | hmem
    · exact hx (by simp [writtenID, hdone])
    · exact hs (List.mem_filter.mp hmem).1
  · rw [ids_drop]
    exact fun hmem => hs (List.mem_filter.mp hmem).1

theorem absent_of_runs {t : List (ℕ × storeSig.Event)} (hs : id ∉ s.ids) (hrun : Runs storeStep ps s t ps' s')
    (ht : ∀ y ∈ t, writtenID y.2 ≠ some id) : id ∉ s'.ids :=
  hrun.invariant (P := fun m => id ∉ m.ids) (fun y hy _ _ hm hstep => absent_step hm (ht y hy) hstep) hs

/-- What a read finds is stored, under the id it has. -/
theorem found_of_read (hown : s.OwnIDs) {t₁ t₂ : List (ℕ × storeSig.Event)} {i : ℕ} {field : String}
    {data : DeadLetterEntry JSONText}
    (hrun : Runs storeStep (calls.map (·.program active maxEntries)) s
      (t₁ ++ (i, ⟨.hget field, .ok (some data)⟩) :: t₂) ps' s') :
    data.id = field ∧ ∃ qs m, Runs storeStep (calls.map (·.program active maxEntries)) s t₁ qs m ∧ field ∈ m.ids := by
  obtain ⟨qs, k, m, m', hrun₁, -, ⟨-, hfound⟩, -⟩ := hrun.at
  refine ⟨(ownIDs_of_runs hown hrun₁).of_lookup hfound.symm, qs, m, hrun₁, ?_⟩
  rw [← lookup_isSome_iff_mem, ← hfound]
  rfl

theorem absent_after_removal {t₁ t₂ : List (ℕ × storeSig.Event)} {j deleted : ℕ}
    (hrun : Runs storeStep ps s (t₁ ++ (j, ⟨.execRemove id, .ok deleted⟩) :: t₂) ps' s')
    (ht₂ : ∀ y ∈ t₂, writtenID y.2 ≠ some id) : id ∉ s'.ids := by
  obtain ⟨qs, k, m, m', -, -, ⟨rfl, -⟩, hrun₂⟩ := hrun.at
  exact absent_of_runs (by simp) hrun₂ ht₂

/-- An entry that is removed and not written since is not read. -/
theorem not_read_after_removal (hown : s.OwnIDs) {t₁ u v : List (ℕ × storeSig.Event)} {i j deleted : ℕ} {field : String}
    {data : DeadLetterEntry JSONText} (hid : data.id = id) (hu : ∀ y ∈ u, writtenID y.2 ≠ some id) :
    ¬ Runs storeStep (calls.map (·.program active maxEntries)) s ((t₁ ++ (j, ⟨.execRemove id, .ok deleted⟩) :: u) ++
        (i, ⟨.hget field, .ok (some data)⟩) :: v) ps' s' := by
  intro hrun
  obtain ⟨hfield, qs, m, hrunm, hmem⟩ := found_of_read hown hrun
  rw [← hfield, hid] at hmem
  exact absent_after_removal hrunm hu hmem

/-- After the entry is removed, the first write of it would be by a call that
read it before. -/
theorem no_write_after_removal (hpipeline : ∀ entry, .park entry ∈ calls → entry.id ≠ id) (hown : s.OwnIDs)
    {t₁ t₂ : List (ℕ × storeSig.Event)} {j deleted : ℕ}
    (hrun : Runs storeStep (calls.map (·.program active maxEntries)) s (t₁ ++ (j, ⟨.execRemove id, .ok deleted⟩) :: t₂) ps' s')
    (hback : ∀ i, ¬ WritesBack i id t₁ t₂) : ∀ y ∈ t₂, writtenID y.2 ≠ some id := by
  suffices hfirst : ∀ n c y d, c.length = n → t₂ = c ++ y :: d → writtenID y.2 ≠ some id by
    intro y hy
    obtain ⟨c, d, hsplit⟩ := List.append_of_mem hy
    exact hfirst c.length c y d rfl hsplit
  intro n
  induction n using Nat.strong_induction_on with
  | _ n ih =>
    rintro c ⟨i, x⟩ d rfl rfl hx
    have hquiet : ∀ y ∈ c, writtenID y.2 ≠ some id := by
      intro y hy
      obtain ⟨c₁, c₂, rfl⟩ := List.append_of_mem hy
      exact ih c₁.length (by simp) c₁ y (c₂ ++ (i, x) :: d) rfl (by simp)
    -- The call that writes has read the entry.
    have hrun' : Runs storeStep (calls.map (·.program active maxEntries)) s ((t₁ ++ (j, ⟨.execRemove id, .ok deleted⟩) :: c) ++ (i, x) :: d) ps' s' := by
      simpa using hrun
    obtain ⟨before, field, data, after, hread, hid, hafter⟩ : HasRead id
        (ofIndex i (t₁ ++ (j, ⟨.execRemove id, .ok deleted⟩) :: c)) := by
      obtain ⟨data, score, r, rfl⟩ := writtenID_eq_some hx
      obtain ⟨call, hcall, -, hwarranted⟩ := warranted_of_runs hrun'
      refine hwarranted.resolve_left ?_
      rintro ⟨entry, rfl, hentry⟩
      exact hpipeline entry (List.mem_of_getElem? hcall) hentry
    rw [ofIndex_append] at hread
    rcases append_cons_cut hread.symm with ⟨e, hearly, hafter'⟩ | ⟨e, hlate⟩
    · -- Before the removal: this is a write of the entry as it was.
      obtain ⟨u, v, rfl, -, rfl⟩ := ofIndex_eq_append_cons hearly
      have hrunu : Runs storeStep (calls.map (·.program active maxEntries)) s (u ++ (i, ⟨.hget field, .ok (some data)⟩) ::
          (v ++ (j, ⟨.execRemove id, .ok deleted⟩) :: (c ++ (i, x) :: d))) ps' s' := by simpa using hrun
      obtain ⟨hfield, -⟩ := found_of_read hown hrunu
      obtain rfl : field = id := hfield.symm.trans hid
      refine hback i ⟨before, data, ofIndex i v, ofIndex i c, x, ofIndex i d, hearly, ?_, hx, fun y hy => hafter y ?_⟩
      · rw [ofIndex_append, ofIndex_cons_self]
      · rw [hafter']
        refine List.append_subset.mpr ⟨List.subset_append_left _ _, ?_⟩ hy
        exact List.subset_append_of_subset_right _ ((List.sublist_cons_self _ _).filterMap _).subset
    · -- After the removal: it was not there.
      obtain ⟨u, v, hsplit, -, -⟩ := ofIndex_eq_append_cons hlate
      rcases List.cons_eq_append_iff.mp hsplit with ⟨-, hhead⟩ | ⟨u, rfl, rfl⟩
      · cases (List.cons.inj hhead).1
      have hrunu : Runs storeStep (calls.map (·.program active maxEntries)) s ((t₁ ++ (j, ⟨.execRemove id, .ok deleted⟩) :: u) ++
          (i, ⟨.hget field, .ok (some data)⟩) :: (v ++ (i, x) :: d)) ps' s' := by simpa using hrun
      exact not_read_after_removal hown hid (fun y hy => hquiet y (by simp [hy])) hrunu

/-- A `Discard` that has returned nil has removed the entry. -/
theorem discard_steps {t : List storeSig.Event} (h : Steps (Manager.discard id) t (.ret none)) :
    ∃ deleted, t = [⟨.execRemove id, .ok deleted⟩] := by
  cases h with
  | @cons _ _ answer _ _ h =>
    cases answer with
    | error err => cases h
    | ok deleted =>
      refine ⟨deleted, ?_⟩
      by_cases hzero : deleted = 0
      · subst hzero
        cases h
      · change Steps (match if deleted = 0 then some errNotFound else none with
          | some err => .ret (some err)
          | none => .ret none) _ _ at h
        rw [if_neg hzero] at h
        cases h
        rfl

/-- **A discarded dead letter stays discarded.** However `Retry`, `RetryAll` and
`Discard` calls and the `Park` calls of deliveries that park other events
interleave on a store whose entries are under their own ids: once a `Discard`
has returned nil, its entry is not in the store, if no retry writes back the
entry as it read it before the `Discard` removed it. -/
theorem discarded_stays_discarded (active : String → Bool) (s : RedisStore) (hown : s.OwnIDs)
    (calls : List TriageCall) (id : String) (hpipeline : ∀ entry, .park entry ∈ calls → entry.id ≠ id) (j : ℕ)
    (hj : calls[j]? = some (.discard id)) (t : List (ℕ × storeSig.Event)) (ps' : List (StoreM (Option Err)))
    (s' : RedisStore) (hrun : Runs storeStep (calls.map (·.program active s.maxEntries)) s t ps' s')
    (hnil : ps'[j]? = some (.ret none))
    (hback : ∀ t₁ x t₂, t = t₁ ++ (j, x) :: t₂ → ∀ i, ¬ WritesBack i id t₁ t₂) : id ∉ s'.ids := by
  obtain ⟨p', hp', hsteps⟩ := hrun.steps j (Manager.discard id) (by rw [List.getElem?_map, hj]; rfl)
  rw [hnil] at hp'
  cases hp'
  obtain ⟨deleted, hremoved⟩ := discard_steps hsteps
  obtain ⟨t₁, t₂, rfl, -, -⟩ := ofIndex_eq_append_cons (u := []) hremoved
  exact absent_after_removal hrun (no_write_after_removal hpipeline hown hrun (hback t₁ _ t₂ rfl))

end Discarded

/-! ## A retry around a `Discard` -/

def oneLetter : RedisStore := { maxEntries := 100, entries := [("s:1", storedLetter "1")], index := [("s:1", 9)] }

theorem ownIDs_oneLetter : oneLetter.OwnIDs := by
  intro member hmember
  rw [List.mem_singleton.mp hmember]
  rfl

/-- A retry that comes after the `Discard` finds nothing. -/
def retriedAfter : List (ℕ × storeSig.Event) := [(0, ⟨.execRemove "s:1", .ok 1⟩), (1, ⟨.hget "s:1", .ok none⟩)]

theorem discarded_stays_discarded_retried :
    ∃ s', Runs storeStep ([TriageCall.discard "s:1", .retry "s:1"].map (·.program (fun _ => true) 100)) oneLetter
        retriedAfter [.ret none, .ret (some errNotFound)] s' ∧ "s:1" ∉ s'.ids := by
  have hrun : Runs storeStep ([TriageCall.discard "s:1", .retry "s:1"].map (·.program (fun _ => true) 100)) oneLetter
      retriedAfter [.ret none, .ret (some errNotFound)] (oneLetter.drop "s:1") :=
    .cons rfl ⟨rfl, rfl⟩ (.cons rfl ⟨rfl, rfl⟩ .nil)
  refine ⟨_, hrun, discarded_stays_discarded (fun _ => true) oneLetter ownIDs_oneLetter _ "s:1" (by simp) 0 rfl _ _ _
    hrun rfl ?_⟩
  rintro t₁ x t₂ hsplit i ⟨before, data, after, -, -, -, hread, -⟩
  rcases List.cons_eq_append_iff.mp hsplit with ⟨rfl, -⟩ | ⟨t, rfl, hrest⟩
  · simp [ofIndex] at hread
  · rcases List.cons_eq_append_iff.mp hrest with ⟨-, hhead⟩ | ⟨t', -, hnone⟩
    · cases (List.cons.inj hhead).1
    · simp at hnone

/-- The retry has read the entry when the `Discard` removes it; the sink refuses
the event again, and the entry is parked. -/
def retriedAround : List (ℕ × storeSig.Event) :=
  [(0, ⟨.hget "s:1", .ok (some (storedLetter "1"))⟩), (1, ⟨.execRemove "s:1", .ok 1⟩),
    (0, ⟨.process "s" (storedLetter "1").unmarshal.event, some (.new "refused again")⟩), (0, ⟨.now, (12 : ℕ)⟩),
    (0, ⟨.hexists "s:1", .ok false⟩), (0, ⟨.zcard, .ok 0⟩),
    (0, ⟨.execPark "s:1" { storedLetter "1" with attempts := 4, error := "refused again", lastFailedAt := 12 } 12, .ok ()⟩)]

theorem discard_undone :
    ∃ ps' s', Runs storeStep ([TriageCall.retry "s:1", .discard "s:1"].map (·.program (fun _ => true) 100)) oneLetter
        retriedAround ps' s' ∧ ps'[1]? = some (.ret none) ∧ s'.ids = ["s:1"] :=
  ⟨_, _, .cons rfl ⟨rfl, rfl⟩ (.cons rfl ⟨rfl, rfl⟩ (.cons rfl rfl (.cons rfl rfl (.cons rfl ⟨rfl, rfl⟩
    (.cons rfl ⟨rfl, rfl⟩ (.cons rfl rfl .nil)))))), rfl, rfl⟩

end Gtc
