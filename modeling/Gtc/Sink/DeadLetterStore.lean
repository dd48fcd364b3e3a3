/-
The dead-letter store under concurrent calls: each Redis command is one step,
and calls interleave between their commands.

The hash and the index are written together, so they always hold the same ids.
The cap is another matter: `Park` looks for its entry and at the size of the
index, and writes in a third round trip. Where no other entry is written
between the check that let a `Park` pass and its own write, the cap holds
(`store_cap`); two that check before either writes exceed it
(`store_cap_exceeded`).

A command may also fail; the error of a `MULTI`/`EXEC` says here whether it was
executed all the same.
-/
import Gtc.Lib.Threads
import Gtc.Sink.DeadLetters
import Mathlib.Data.List.Nodup

namespace Gtc

open Lib

/-! ## Commands -/

inductive StoreOp where
  | hexists (id : String)
  | zcard
  /-- `ZREVRANGE index 0 stop`, where -1 is the end. -/
  | zrevrange (stop : Int)
  | hget (id : String)
  | hmget (ids : List String)
  /-- `MULTI`, `HSET`, `ZADD`, `EXEC`. -/
  | execPark (id : String) (data : DeadLetterEntry JSONText) (score : ℕ)
  /-- `MULTI`, `HDEL`, `ZREM`, `EXEC`: how many entries `HDEL` deleted. -/
  | execRemove (id : String)
  /-- `Process` of a sink of this instance, for one event. -/
  | process (sink : String) (event : CDCEvent GoValue)
  /-- `ctx.Err()`. -/
  | ctxErr
  | now

@[reducible] def StoreOp.Res : StoreOp → Type
  | .hexists _ => Except Err Bool
  | .zcard => Except Err ℕ
  | .zrevrange _ => Except Err (List String)
  | .hget _ => Except Err (Option (DeadLetterEntry JSONText))
  | .hmget _ => Except Err (List (Option (DeadLetterEntry JSONText)))
  | .execPark _ _ _ => Except (Err × Bool) Unit
  | .execRemove _ => Except (Err × Bool) ℕ
  | .process _ _ => Option Err
  | .ctxErr => Option Err
  | .now => ℕ

abbrev storeSig : Signature := ⟨StoreOp, StoreOp.Res⟩

abbrev StoreM := Program storeSig

namespace RedisStore

variable (s : RedisStore)

/-- The fields of the hash. -/
def ids : List String := s.entries.map (·.1)

/-- The members of the index. -/
def indexed : List String := s.index.map (·.1)

def put (id : String) (data : DeadLetterEntry JSONText) (score : ℕ) : RedisStore :=
  { s with entries := putMember id data s.entries, index := putMember id score s.index }

def drop (id : String) : RedisStore :=
  { s with entries := s.entries.filter (·.1 ≠ id), index := s.index.filter (·.1 ≠ id) }

/-- The members by falling score, and by falling name where the scores are the
same. -/
def newestFirst : List String :=
  (s.index.mergeSort fun a b => b.2 < a.2 || (b.2 == a.2 && decide (b.1 ≤ a.1))).map (·.1)

/-- The members from the first to number `stop`. -/
def revRange (stop : Int) : List String :=
  if stop < 0 then s.newestFirst.take (s.newestFirst.length - (-stop - 1).toNat)
  else s.newestFirst.take (stop.toNat + 1)

end RedisStore

/-- What a command does to the store, with the answer it gives. -/
def storeStep (s : RedisStore) : storeSig.Event → RedisStore → Prop
  | ⟨.hexists id, .ok found⟩, s' => s' = s ∧ found = (s.entries.lookup id).isSome
  | ⟨.zcard, .ok size⟩, s' => s' = s ∧ size = s.index.length
  | ⟨.zrevrange stop, .ok ids⟩, s' => s' = s ∧ ids = s.revRange stop
  | ⟨.hget id, .ok data⟩, s' => s' = s ∧ data = s.entries.lookup id
  | ⟨.hmget ids, .ok values⟩, s' => s' = s ∧ values = ids.map fun id => s.entries.lookup id
  | ⟨.execPark id data score, .ok _⟩, s' => s' = s.put id data score
  | ⟨.execPark id data score, .error (_, done)⟩, s' => s' = if done then s.put id data score else s
  | ⟨.execRemove id, .ok deleted⟩, s' => s' = s.drop id ∧ deleted = if (s.entries.lookup id).isSome then 1 else 0
  | ⟨.execRemove id, .error (_, done)⟩, s' => s' = if done then s.drop id else s
  | _, s' => s' = s

/-! ## Calls -/

def command (o : StoreOp) : StoreM o.Res := Program.perform (S := storeSig) o

/-- `fmt.Errorf` of the text and `%w`. -/
def storeErr (text : String) (err : Err) : Err := .wrap (text ++ err.error) err

namespace Store

/-- `redisStore.Park` after its checks. -/
def write (entry : DeadLetterEntry GoValue) : StoreM (Option Err) :=
  match entry.marshal with
  | .error err => return some (storeErr "dlq: marshal entry: " err)
  | .ok data => do
    match ← command (.execPark entry.id data entry.lastFailedAt) with
    | .error (err, _) => return some (storeErr "dlq: park entry: " err)
    | .ok _ => return none

/-- `redisStore.Park`. -/
def park (maxEntries : ℤ) (entry : DeadLetterEntry GoValue) : StoreM (Option Err) := do
  match ← command (.hexists entry.id) with
  | .error err => return some (storeErr "dlq: check entry: " err)
  | .ok found =>
    if found = false ∧ 0 < maxEntries then
      match ← command .zcard with
      | .error err => return some (storeErr "dlq: size check: " err)
      | .ok size =>
        if maxEntries ≤ size then return some (.wrap (errFull.error ++ " (" ++ toString size ++ " entries)") errFull)
        else write entry
    else write entry

/-- `redisStore.Remove`. -/
def remove (id : String) : StoreM (Option Err) := do
  match ← command (.execRemove id) with
  | .error (err, _) => return some (storeErr "dlq: remove entry: " err)
  | .ok deleted => return if deleted = 0 then some errNotFound else none

/-- `redisStore.Get`. -/
def get (id : String) : StoreM (Except Err (DeadLetterEntry GoValue)) := do
  match ← command (.hget id) with
  | .error err => return .error (storeErr "dlq: get entry: " err)
  | .ok none => return .error errNotFound
  | .ok (some data) => return .ok data.unmarshal

end Store

/-! ## The hash and the index -/

/-- The hash and the index hold the same ids, each once. -/
structure RedisStore.Consistent (s : RedisStore) : Prop where
  ids : s.ids.Nodup
  indexed : s.indexed.Nodup
  same : ∀ id, id ∈ s.ids ↔ id ∈ s.indexed

section Ids

variable (s : RedisStore) (id : String)

theorem map_fst_filter_ne {α : Type} (members : List (String × α)) :
    (members.filter (·.1 ≠ id)).map (·.1) = (members.map (·.1)).filter (· ≠ id) := by
  rw [List.filter_map]
  rfl

theorem filter_ne_of_notMem {α : Type} {members : List (String × α)} {id : String} (h : id ∉ members.map (·.1)) :
    members.filter (·.1 ≠ id) = members := by
  refine List.filter_eq_self.mpr fun member hmember => ?_
  have hne : member.1 ≠ id := fun heq => h (heq ▸ List.mem_map_of_mem hmember)
  simpa using hne

@[simp] theorem ids_put (data : DeadLetterEntry JSONText) (score : ℕ) :
    (s.put id data score).ids = id :: s.ids.filter (· ≠ id) := by
  rw [RedisStore.ids, RedisStore.ids, ← map_fst_filter_ne]
  rfl

@[simp] theorem indexed_put (data : DeadLetterEntry JSONText) (score : ℕ) :
    (s.put id data score).indexed = id :: s.indexed.filter (· ≠ id) := by
  rw [RedisStore.indexed, RedisStore.indexed, ← map_fst_filter_ne]
  rfl

@[simp] theorem ids_drop : (s.drop id).ids = s.ids.filter (· ≠ id) := map_fst_filter_ne id s.entries

@[simp] theorem indexed_drop : (s.drop id).indexed = s.indexed.filter (· ≠ id) := map_fst_filter_ne id s.index

theorem lookup_eq_none_iff_notMem : s.entries.lookup id = none ↔ id ∉ s.ids := by
  rw [List.lookup_eq_none_iff]
  simp only [RedisStore.ids, List.mem_map, not_exists, not_and, bne_iff_ne]
  constructor
  · intro h entry hentry heq; exact h entry hentry heq.symm
  · intro h entry hentry heq; exact h entry hentry heq.symm

theorem lookup_isSome_iff_mem : (s.entries.lookup id).isSome = true ↔ id ∈ s.ids := by
  rw [Option.isSome_iff_ne_none, ne_eq, lookup_eq_none_iff_notMem, not_not]

end Ids

variable {s s' : RedisStore} {x : storeSig.Event} {id : String}

theorem RedisStore.Consistent.put (h : s.Consistent) (id : String) (data : DeadLetterEntry JSONText)
    (score : ℕ) : (s.put id data score).Consistent where
  ids := by
    rw [ids_put]
    exact List.nodup_cons.mpr ⟨by simp, h.ids.filter _⟩
  indexed := by
    rw [indexed_put]
    exact List.nodup_cons.mpr ⟨by simp, h.indexed.filter _⟩
  same id' := by simp only [ids_put, indexed_put, List.mem_cons, List.mem_filter, h.same]

theorem RedisStore.Consistent.drop (h : s.Consistent) (id : String) : (s.drop id).Consistent where
  ids := by rw [ids_drop]; exact h.ids.filter _
  indexed := by rw [indexed_drop]; exact h.indexed.filter _
  same id' := by simp only [ids_drop, indexed_drop, List.mem_filter, h.same]

theorem RedisStore.Consistent.length_eq (h : s.Consistent) : s.ids.length = s.index.length := by
  rw [((List.perm_ext_iff_of_nodup h.ids h.indexed).mpr h.same).length_eq, RedisStore.indexed, List.length_map]

/-- The commands were executed, whether or not the answer came. -/
def executed {α : Type} : Except (Err × Bool) α → Bool
  | .ok _ => true
  | .error (_, done) => done

/-- The entry an operation writes. -/
def writtenID : storeSig.Event → Option String
  | ⟨.execPark id _ _, r⟩ => if executed r then some id else none
  | _ => none

theorem writtenID_eq_some (h : writtenID x = some id) : ∃ data score r, x = ⟨.execPark id data score, r⟩ := by
  unfold writtenID at h
  split at h
  · split at h <;> cases h
    exact ⟨_, _, _, rfl⟩
  · cases h

/-- All a command can do to the store. -/
theorem storeStep_cases (h : storeStep s x s') :
    s' = s ∨ (∃ id data score r, x = ⟨.execPark id data score, r⟩ ∧ executed r = true ∧ s' = s.put id data score) ∨
      ∃ id r, x = ⟨.execRemove id, r⟩ ∧ executed r = true ∧ s' = s.drop id := by
  unfold storeStep at h
  split at h
  · exact .inl h.1
  · exact .inl h.1
  · exact .inl h.1
  · exact .inl h.1
  · exact .inl h.1
  · exact .inr (.inl ⟨_, _, _, _, rfl, rfl, h⟩)
  · split at h
    · next hdone => exact .inr (.inl ⟨_, _, _, _, rfl, hdone, h⟩)
    · exact .inl h
  · exact .inr (.inr ⟨_, _, rfl, rfl, h.1⟩)
  · split at h
    · next hdone => exact .inr (.inr ⟨_, _, rfl, hdone, h⟩)
    · exact .inl h
  · exact .inl h

theorem RedisStore.Consistent.step (hs : s.Consistent) (h : storeStep s x s') : s'.Consistent := by
  rcases storeStep_cases h with rfl | ⟨id, data, score, r, -, -, rfl⟩ | ⟨id, r, -, -, rfl⟩
  · exact hs
  · exact hs.put id data score
  · exact hs.drop id

/-! ## A call alone on the store -/

section Alone

variable (process : String → CDCEvent GoValue → Option Err) (now : ℕ)

/-- Answers every command, none of them failing. -/
def RedisStore.serve (s : RedisStore) : (o : StoreOp) → o.Res × RedisStore
  | .hexists id => (.ok (s.entries.lookup id).isSome, s)
  | .zcard => (.ok s.index.length, s)
  | .zrevrange stop => (.ok (s.revRange stop), s)
  | .hget id => (.ok (s.entries.lookup id), s)
  | .hmget ids => (.ok (ids.map fun id => s.entries.lookup id), s)
  | .execPark id data score => (.ok (), s.put id data score)
  | .execRemove id => (.ok (if (s.entries.lookup id).isSome then 1 else 0), s.drop id)
  | .process sink event => (process sink event, s)
  | .ctxErr => (none, s)
  | .now => (now, s)

theorem storeStep_serve (s : RedisStore) (o : StoreOp) :
    storeStep s ⟨o, (s.serve process now o).1⟩ (s.serve process now o).2 := by
  cases o <;> first | rfl | exact ⟨rfl, rfl⟩

theorem runWith_command {β : Type} (s : RedisStore) (o : StoreOp) (f : o.Res → StoreM β) :
    runWith (RedisStore.serve process now) (command o >>= f) s =
      runWith (RedisStore.serve process now) (f (s.serve process now o).1) (s.serve process now o).2 := rfl

/-- What a call that goes by `RedisStore` returns and leaves. -/
def outcome (s : RedisStore) : Except Err RedisStore → Option Err × RedisStore
  | .ok s' => (none, s')
  | .error err => (some err, s)

/-- Alone on the store, a `Park` does in its commands what `RedisStore.park` says. -/
theorem park_alone (s : RedisStore) (entry : DeadLetterEntry GoValue) :
    runWith (RedisStore.serve process now) (Store.park s.maxEntries entry) s = outcome s (s.park entry) := by
  have hwrite : runWith (RedisStore.serve process now) (Store.write entry) s =
      outcome s ((entry.marshal.map (s.put entry.id · entry.lastFailedAt)).mapError
        (storeErr "dlq: marshal entry: ")) := by
    unfold Store.write
    cases entry.marshal <;> rfl
  rw [Store.park, runWith_command]
  simp only [RedisStore.serve, RedisStore.park]
  cases hfound : s.entries.lookup entry.id with
  | some data =>
    rw [if_neg (by simp), hwrite, if_neg (by simp)]
    cases entry.marshal <;> rfl
  | none =>
    by_cases hcap : 0 < s.maxEntries
    · rw [if_pos ⟨rfl, hcap⟩, runWith_command]
      by_cases hfull : s.maxEntries ≤ s.index.length
      · rw [if_pos ⟨rfl, hcap, hfull⟩]
        simp only [RedisStore.serve, if_pos hfull]
        rfl
      · rw [if_neg fun h => hfull h.2.2]
        simp only [RedisStore.serve, if_neg hfull, hwrite]
        cases entry.marshal <;> rfl
    · rw [if_neg fun h => hcap h.2, hwrite, if_neg fun h => hcap h.2.1]
      cases entry.marshal <;> rfl

theorem get_alone (s : RedisStore) (id : String) :
    runWith (RedisStore.serve process now) (Store.get id) s = (s.get id, s) := by
  rw [Store.get, runWith_command]
  simp only [RedisStore.serve, RedisStore.get]
  cases s.entries.lookup id <;> rfl

theorem remove_alone {s : RedisStore} (hs : s.Consistent) (id : String) :
    runWith (RedisStore.serve process now) (Store.remove id) s = outcome s (s.remove id) := by
  rw [Store.remove, runWith_command]
  simp only [RedisStore.serve, RedisStore.remove]
  cases hfound : s.entries.lookup id with
  | some data => rfl
  | none =>
    have hids : id ∉ s.ids := (lookup_eq_none_iff_notMem s id).mp hfound
    have hindexed : id ∉ s.indexed := fun h => hids ((hs.same id).mpr h)
    rw [RedisStore.drop, filter_ne_of_notMem hids, filter_ne_of_notMem hindexed]
    rfl

end Alone

/-! ## The cap -/

/-- A `Park` or a `Remove`. -/
inductive StoreCall where
  | park (entry : DeadLetterEntry GoValue)
  | remove (id : String)

def StoreCall.program (maxEntries : ℤ) : StoreCall → StoreM (Option Err)
  | .park entry => Store.park maxEntries entry
  | .remove id => Store.remove id

/-- Between an operation of a call and the write that is its next one, only that
entry is written. -/
def Undisturbed (t : List (ℕ × storeSig.Event)) : Prop :=
  ∀ t₁ i x mid y t₂ id, t = t₁ ++ (i, x) :: (mid ++ (i, y) :: t₂) → ofIndex i mid = [] → writtenID y = some id →
    ∀ z ∈ mid, ∀ id', writtenID z.2 = some id' → id' = id

/-- The check after which a `Park` writes `id`: the entry was there, or there was
room. -/
def Passed (maxEntries : ℤ) (id : String) (x : storeSig.Event) : Prop :=
  x = ⟨.hexists id, .ok true⟩ ∨ ∃ size : ℕ, x = ⟨.zcard, .ok size⟩ ∧ (size : ℤ) < maxEntries

/-- A write comes right after its check. -/
def ChecksFirst (maxEntries : ℤ) (h : List storeSig.Event) : StoreOp → Prop
  | .execPark id _ _ => ∃ h' x, h = h' ++ [x] ∧ Passed maxEntries id x
  | _ => True

theorem write_checksFirst {maxEntries : ℤ} {entry : DeadLetterEntry GoValue} {h : List storeSig.Event}
    (hh : ∃ h' x, h = h' ++ [x] ∧ Passed maxEntries entry.id x) :
    Obeys (ChecksFirst maxEntries) (Store.write entry) h fun _ _ => True := by
  unfold Store.write
  split
  · trivial
  · refine ⟨hh, fun r => ?_⟩
    cases r <;> trivial

theorem park_checksFirst {maxEntries : ℤ} (hM : 0 < maxEntries) (entry : DeadLetterEntry GoValue)
    (h : List storeSig.Event) :
    Obeys (ChecksFirst maxEntries) (Store.park maxEntries entry) h fun _ _ => True := by
  refine ⟨trivial, fun found => ?_⟩
  cases found with
  | error err => trivial
  | ok found =>
    cases found with
    | true => exact write_checksFirst ⟨h, _, rfl, .inl rfl⟩
    | false =>
      change Obeys _ (if _ then _ else _) _ _
      rw [if_pos ⟨rfl, hM⟩]
      refine ⟨trivial, fun size => ?_⟩
      cases size with
      | error err => trivial
      | ok size =>
        change Obeys _ (if _ then _ else _) _ _
        split
        · trivial
        · next hroom => exact write_checksFirst ⟨_, _, rfl, .inr ⟨size, rfl, by omega⟩⟩

theorem program_checksFirst {maxEntries : ℤ} (hM : 0 < maxEntries) (call : StoreCall) (h : List storeSig.Event) :
    Obeys (ChecksFirst maxEntries) (call.program maxEntries) h fun _ _ => True := by
  cases call with
  | park entry => exact park_checksFirst hM entry h
  | remove id =>
    refine ⟨trivial, fun deleted => ?_⟩
    cases deleted <;> trivial

/-- The members of the index other than `id`. -/
def RedisStore.others (s : RedisStore) (id : String) : List String := s.indexed.filter (· ≠ id)

theorem others_step (h : storeStep s x s')
    (hx : ∀ id', writtenID x = some id' → id' = id) : (s'.others id).length ≤ (s.others id).length := by
  rcases storeStep_cases h with rfl | ⟨id', data, score, r, rfl, hdone, rfl⟩ | ⟨id', r, -, -, rfl⟩
  · exact Nat.le_refl _
  · obtain rfl := hx id' (by simp [writtenID, hdone])
    simp [RedisStore.others]
  · rw [RedisStore.others, indexed_drop, RedisStore.others, List.filter_comm]
    exact List.length_filter_le _ _

/-- What a passed check finds: without `id`, the store is not full. -/
theorem Passed.room (hs : s.Consistent) {maxEntries : ℤ} (hcap : (s.ids.length : ℤ) ≤ maxEntries)
    (hx : Passed maxEntries id x) (h : storeStep s x s') : ((s'.others id).length : ℤ) < maxEntries := by
  have hle : (s.others id).length ≤ s.indexed.length := List.length_filter_le _ _
  have hlen : s.indexed.length = s.ids.length := by rw [hs.length_eq, RedisStore.indexed, List.length_map]
  rcases hx with rfl | ⟨size, rfl, hsize⟩
  · obtain ⟨rfl, hfound⟩ := h
    have hmem : id ∈ s'.indexed := (hs.same id).mp ((lookup_isSome_iff_mem s' id).mp hfound.symm)
    have hlt : (s'.others id).length < s'.indexed.length :=
      List.length_filter_lt_length_iff_exists.mpr ⟨id, hmem, by simp⟩
    omega
  · obtain ⟨rfl, rfl⟩ := h
    rw [← hs.length_eq] at hsize
    omega

theorem Undisturbed.take {t₁ t₂ : List (ℕ × storeSig.Event)} (h : Undisturbed (t₁ ++ t₂)) : Undisturbed t₁ := by
  intro u i x mid y v id hsplit
  exact h u i x mid y (v ++ t₂) id (by simp [hsplit])

section Cap

variable {s : RedisStore} {calls : List StoreCall} {ps' : List (StoreM (Option Err))} {s' : RedisStore}

theorem consistent_of_runs {ps : List (StoreM (Option Err))} {t : List (ℕ × storeSig.Event)} (hs : s.Consistent)
    (hrun : Runs storeStep ps s t ps' s') : s'.Consistent :=
  hrun.invariant (fun _ _ _ _ hm h => hm.step h) hs

/-- A write that nothing came between finds room. -/
theorem room_at_write (hs : s.Consistent) {t : List (ℕ × storeSig.Event)} {qs m}
    (hrun : Runs storeStep (calls.map (·.program s.maxEntries)) s t qs m) {i : ℕ} {id : String}
    (hchecked : ∃ h' x, ofIndex i t = h' ++ [x] ∧ Passed s.maxEntries id x)
    (hcap : ∀ t₁ x t₂ qs₁ m₁, t = t₁ ++ x :: t₂ → Runs storeStep (calls.map (·.program s.maxEntries)) s t₁ qs₁ m₁ →
      (m₁.ids.length : ℤ) ≤ s.maxEntries)
    (hquiet : ∀ t₁ x mid, t = t₁ ++ (i, x) :: mid → ofIndex i mid = [] →
      ∀ z ∈ mid, ∀ id', writtenID z.2 = some id' → id' = id) : ((m.others id).length : ℤ) < s.maxEntries := by
  obtain ⟨h', x, hown, hpassed⟩ := hchecked
  obtain ⟨t₁, mid, rfl, -, hmid⟩ := ofIndex_eq_append_cons hown
  obtain ⟨qs₁, k₁, m₁, m₂, hrun₁, -, hstep, hrun₂⟩ := hrun.at
  have hroom := hpassed.room (consistent_of_runs hs hrun₁) (hcap t₁ (i, x) mid qs₁ m₁ rfl hrun₁) hstep
  refine hrun₂.invariant (P := fun n => ((n.others id).length : ℤ) < s.maxEntries) (fun z hz n n' hn hnext => ?_) hroom
  have hle := others_step hnext (hquiet t₁ x mid rfl hmid z hz)
  omega

/-- **The cap of the dead-letter store.** However many `Park` and `Remove` calls
interleave, and whichever of their commands fail: the hash and the index always
hold the same ids, each once. They hold at most `maxEntries` of them if, between
the check that let a `Park` pass and its write, no other entry is written. -/
theorem store_cap (s : RedisStore) (hM : 0 < s.maxEntries) (hs : s.Consistent)
    (hsize : (s.ids.length : ℤ) ≤ s.maxEntries) (calls : List StoreCall) (t : List (ℕ × storeSig.Event))
    (ps' : List (StoreM (Option Err))) (s' : RedisStore)
    (hrun : Runs storeStep (calls.map (·.program s.maxEntries)) s t ps' s') :
    s'.Consistent ∧ (Undisturbed t → (s'.ids.length : ℤ) ≤ s.maxEntries) := by
  have hchecks : ∀ p ∈ calls.map (·.program s.maxEntries), Obeys (ChecksFirst s.maxEntries) p [] fun _ _ => True :=
    List.forall_mem_map.mpr fun call _ => program_checksFirst hM call []
  refine ⟨consistent_of_runs hs hrun, ?_⟩
  induction hlen : t.length using Nat.strong_induction_on generalizing t ps' s' with
  | _ n ih =>
    intro hquiet
    rcases List.eq_nil_or_concat' t with rfl | ⟨t', y, rfl⟩
    · cases hrun
      exact hsize
    obtain ⟨i, x⟩ := y
    obtain ⟨qs, k, m, m', hrun', -, hstep, hend⟩ := hrun.at
    cases hend
    have hm : (m.ids.length : ℤ) ≤ s.maxEntries := ih t'.length (by simp [← hlen]) t' qs m hrun' rfl hquiet.take
    have hmc := consistent_of_runs hs hrun'
    rcases storeStep_cases hstep with rfl | ⟨id, data, score, r, rfl, hdone, rfl⟩ | ⟨id, r, -, -, rfl⟩
    · exact hm
    · have hroom : ((m.others id).length : ℤ) < s.maxEntries := by
        -- The call's own last operation is the check it passed.
        refine room_at_write hs hrun' (hrun.obeys hchecks) (fun t₁ z t₂ qs₁ m₁ ht hrun₁ => ?_) fun t₁ z mid ht hmid => ?_
        · subst ht
          exact ih t₁.length (by simp [← hlen]) t₁ qs₁ m₁ hrun₁ rfl hquiet.take.take
        · exact hquiet t₁ i z mid ⟨.execPark id data score, r⟩ [] id (by simp [ht]) hmid (by simp [writtenID, hdone])
      rw [(hmc.put id data score).length_eq, ← List.length_map, ← RedisStore.indexed, indexed_put, List.length_cons]
      change ((m.others id).length + 1 : ℤ) ≤ _
      omega
    · rw [ids_drop]
      have := List.length_filter_le (· ≠ id) m.ids
      omega

end Cap

/-! ## Two events at a store with one place -/

def onePlace : RedisStore := { maxEntries := 1, entries := [], index := [] }

/-- A dead letter of the sink `s`, with no row data. -/
def letter (eventID : String) : DeadLetterEntry GoValue :=
  { id := "s:" ++ eventID, sinkName := "s", schema := "public", table := "users", operation := "INSERT", lsn := eventID
    error := "refused", attempts := 3, firstFailedAt := 0, lastFailedAt := 9
    event :=
      { id := eventID, operation := .insert, schema := "public", table := "users", oldData := none, newData := none
        unchangedToastColumns := [], metadata := { lsn := eventID, transactionID := 1, timestamp := 0 } } }

def storedLetter (eventID : String) : DeadLetterEntry JSONText :=
  { letter eventID with event := { (letter eventID).event with oldData := none, newData := none } }

/-- Where nothing is written by others since the last operation of the call that
writes, the writes are undisturbed. -/
theorem undisturbed_of_quiet {t : List (ℕ × storeSig.Event)}
    (h : ∀ n : Fin t.length, writtenID t[n].2 = none ∨
      ∀ z ∈ (t.take n).reverse.takeWhile (·.1 ≠ t[n].1), writtenID z.2 = none) : Undisturbed t := by
  intro t₁ i x mid y t₂ id hsplit hmid hy z hz id' hz'
  have hothers : ∀ z ∈ mid.reverse, decide (z.1 ≠ i) = true := fun z hz => by
    simpa using List.filterMap_eq_nil_iff.mp hmid z (List.mem_reverse.mp hz)
  have hat : t = (t₁ ++ (i, x) :: mid) ++ (i, y) :: t₂ := by simp [hsplit]
  obtain ⟨hlt, hget⟩ := List.getElem?_eq_some_iff.mp
    (show t[(t₁ ++ (i, x) :: mid).length]? = some (i, y) by rw [hat, List.getElem?_append_right (Nat.le_refl _)]; simp)
  have htake : t.take (t₁ ++ (i, x) :: mid).length = t₁ ++ (i, x) :: mid := by rw [hat]; exact List.take_left
  have hwrite := h ⟨_, hlt⟩
  rw [Fin.getElem_fin, hget, htake, hy, List.reverse_append, List.reverse_cons, List.append_assoc,
    List.takeWhile_append_of_pos hothers] at hwrite
  have hquiet := hwrite.resolve_left (by simp) z (List.mem_append_left _ (List.mem_reverse.mpr hz))
  rw [hquiet] at hz'
  cases hz'

/-- Two `Park` calls of which each writes before the other looks at the size; a
third finds the store full, before the first entry is removed. The answer to the
last write is lost. -/
def parkedInTurn : List (ℕ × storeSig.Event) :=
  [(0, ⟨.hexists "s:1", .ok false⟩), (1, ⟨.hexists "s:2", .ok false⟩), (0, ⟨.zcard, .ok 0⟩), (3, ⟨.hexists "s:3", .ok false⟩),
    (0, ⟨.execPark "s:1" (storedLetter "1") 9, .ok ()⟩), (3, ⟨.zcard, .ok 1⟩), (2, ⟨.execRemove "s:1", .ok 1⟩),
    (1, ⟨.zcard, .ok 0⟩), (1, ⟨.execPark "s:2" (storedLetter "2") 9, .error (.new "connection reset", true)⟩)]

def callsInTurn : List StoreCall := [.park (letter "1"), .park (letter "2"), .remove "s:1", .park (letter "3")]

theorem store_cap_in_turn :
    ∃ ps' s', Runs storeStep (callsInTurn.map (·.program 1)) onePlace parkedInTurn ps' s' ∧
      ps'[3]? = some (.ret (some (.wrap "dead-letter queue is full (1 entries)" errFull))) ∧
      s'.ids = ["s:2"] ∧ (s'.ids.length : ℤ) ≤ 1 := by
  obtain ⟨ps', s', hrun, hfull, hids⟩ : ∃ ps' s', Runs storeStep (callsInTurn.map (·.program 1)) onePlace parkedInTurn ps' s' ∧
      ps'[3]? = some (.ret (some (.wrap "dead-letter queue is full (1 entries)" errFull))) ∧ s'.ids = ["s:2"] :=
    ⟨_, _, .cons rfl ⟨rfl, rfl⟩ (.cons rfl ⟨rfl, rfl⟩ (.cons rfl ⟨rfl, rfl⟩ (.cons rfl ⟨rfl, rfl⟩ (.cons rfl rfl
      (.cons rfl ⟨rfl, rfl⟩ (.cons rfl ⟨rfl, rfl⟩ (.cons rfl ⟨rfl, rfl⟩ (.cons rfl rfl .nil)))))))), rfl, rfl⟩
  have hcap := store_cap onePlace (by decide) ⟨by decide, by decide, fun _ => .rfl⟩ (by decide) callsInTurn _ _ _ hrun
  exact ⟨ps', s', hrun, hfull, hids, hcap.2 (undisturbed_of_quiet (by decide))⟩

/-- Two `Park` calls find the store empty before either writes. -/
def parkedTogether : List (ℕ × storeSig.Event) :=
  [(0, ⟨.hexists "s:1", .ok false⟩), (0, ⟨.zcard, .ok 0⟩), (1, ⟨.hexists "s:2", .ok false⟩), (1, ⟨.zcard, .ok 0⟩),
    (0, ⟨.execPark "s:1" (storedLetter "1") 9, .ok ()⟩), (1, ⟨.execPark "s:2" (storedLetter "2") 9, .ok ()⟩)]

theorem store_cap_exceeded :
    ∃ s', Runs storeStep ([StoreCall.park (letter "1"), .park (letter "2")].map (·.program 1)) onePlace parkedTogether
        [.ret none, .ret none] s' ∧ s'.ids = ["s:2", "s:1"] ∧ ¬ (s'.ids.length : ℤ) ≤ onePlace.maxEntries := by
  refine ⟨_, .cons rfl ⟨rfl, rfl⟩ (.cons rfl ⟨rfl, rfl⟩ (.cons rfl ⟨rfl, rfl⟩ (.cons rfl ⟨rfl, rfl⟩ (.cons rfl rfl
    (.cons rfl rfl .nil))))), rfl, by decide⟩

end Gtc
