/-
The source database: its write-ahead log as the stream delivers it, the rows
its changes leave, and what a select returns.

A transaction is its changes followed by a commit, added to the log at once, so
the log between two commits or watermarks never holds part of one. A position
is a number of entries.
-/
import Gtc.Backfill.Coordinator
import Gtc.Lib.Changelog

namespace Gtc.Backfill

variable {V : Type}

/-! ## The log -/

inductive Item (V : Type) where
  | change (event : CDCEvent V)
  | commit
  /-- A message with the watermark prefix, and what its content unmarshals to. -/
  | mark (content : Option WatermarkPayload)
deriving DecidableEq, Repr

def Item.change? : Item V → Option (CDCEvent V)
  | .change event => some event
  | _ => none

def changes (wal : List (Item V)) : List (CDCEvent V) := wal.filterMap Item.change?

@[simp] theorem changes_append (wal wal' : List (Item V)) : changes (wal ++ wal') = changes wal ++ changes wal' :=
  List.filterMap_append

@[simp] theorem changes_nil : changes ([] : List (Item V)) = [] := rfl

/-- Entries `a` to `b` of the log. -/
def between (wal : List (Item V)) (a b : ℕ) : List (CDCEvent V) := changes ((wal.take b).drop a)

theorem between_self (wal : List (Item V)) (a : ℕ) : between wal a a = [] := by
  simp [between]

variable {wal : List (Item V)} {event : CDCEvent V}

theorem between_succ {a b : ℕ} {item : Item V} (hab : a ≤ b) (hitem : wal[b]? = some item) :
    between wal a (b + 1) = between wal a b ++ item.change?.toList := by
  have hlen : b < wal.length := (List.getElem?_eq_some_iff.mp hitem).1
  have htake : wal.take (b + 1) = wal.take b ++ [item] := by rw [List.take_add_one, hitem]; rfl
  have hdrop : a ≤ (wal.take b).length := by rw [List.length_take]; omega
  rw [between, htake, List.drop_append_of_le_length hdrop, changes_append, between]
  cases item <;> rfl

/-- The log up to `b` is the log up to `a` and what lies between. -/
theorem changes_take {a b : ℕ} (hab : a ≤ b) : changes (wal.take b) = changes (wal.take a) ++ between wal a b := by
  have hsplit := congrArg changes (List.take_append_drop a (wal.take b))
  rwa [changes_append, List.take_take, Nat.min_eq_left hab, eq_comm] at hsplit

theorem mem_changes : event ∈ changes wal ↔ Item.change event ∈ wal := by
  rw [changes, List.mem_filterMap]
  constructor
  · intro h
    obtain ⟨item, hmem, hitem⟩ := h
    cases item <;> cases hitem
    exact hmem
  · intro h
    exact ⟨_, h, rfl⟩

theorem mem_changes_drop {a : ℕ} :
    event ∈ changes (wal.drop a) ↔ ∃ q, a ≤ q ∧ wal[q]? = some (Item.change event) := by
  rw [mem_changes, List.mem_iff_getElem?]
  simp only [List.getElem?_drop]
  constructor
  · intro h
    obtain ⟨q, hq⟩ := h
    exact ⟨a + q, Nat.le_add_right a q, hq⟩
  · intro h
    obtain ⟨q, haq, hq⟩ := h
    exact ⟨q - a, by rwa [Nat.add_sub_cancel' haq]⟩

theorem mem_between {a b : ℕ} :
    event ∈ between wal a b ↔ ∃ q, a ≤ q ∧ q < b ∧ wal[q]? = some (Item.change event) := by
  rw [between, mem_changes_drop]
  refine exists_congr fun q => and_congr_right fun _ => ?_
  by_cases hq : q < b
  · simp [hq]
  · rw [List.getElem?_take, if_neg hq]
    simp [hq]

/-! ## Rows -/

/-- The rows of all tables, by key. -/
abbrev Contents (V : Type) := TableRef × String → Option (Data V)

section Rows

variable [ToString V] (pk : TableRef → List String)

/-- The columns an UPDATE leaves out because their TOASTed value did not
change keep it. -/
def unchangedColumns (event : CDCEvent V) (old : Option (Data V)) : Data V :=
  (old.getD []).filter fun col => event.unchangedToastColumns.contains col.1

/-- What a committed change does to the rows. -/
def applyChange (event : CDCEvent V) (rows : Contents V) : Contents V := fun (ref, key) =>
  if eventRef event ≠ ref then rows (ref, key)
  else
    let old := rowKey (pk ref) event.oldData
    let new := rowKey (pk ref) event.newData
    match event.operation with
    | .insert => if new = some key then event.newData else rows (ref, key)
    | .update =>
      -- the old tuple is there when the key changes, the new key may be in the old tuple only
      if (new <|> old) = some key then
        event.newData.map (· ++ unchangedColumns event ((old <|> new).bind fun was => rows (ref, was)))
      else if old = some key then none
      else rows (ref, key)
    | .delete => if old = some key then none else rows (ref, key)
    | .truncate => none
    | .read => rows (ref, key)

/-- The change is one of this row. -/
def Touches (event : CDCEvent V) (row : TableRef × String) : Prop :=
  eventRef event = row.1 ∧ (event.operation = .truncate ∨ rowKey (pk row.1) event.oldData = some row.2 ∨
    rowKey (pk row.1) event.newData = some row.2)

theorem applyChange_frame (event : CDCEvent V) (rows : Contents V) (row : TableRef × String)
    (h : ¬ Touches pk event row) : applyChange pk event rows row = rows row := by
  obtain ⟨ref, key⟩ := row
  simp only [applyChange]
  split
  · rfl
  · rename_i href
    simp only [Touches, not_and, not_or] at h
    obtain ⟨hop, hold, hnew⟩ := h (not_not.mp href)
    cases hcase : event.operation with
    | insert => simp [hnew]
    | update => simp [hold, hnew]
    | delete => simp [hold]
    | truncate => exact absurd hcase hop
    | read => rfl

def journal : Lib.Journal (CDCEvent V) (TableRef × String) (Data V) where
  apply := applyChange pk
  Touches := Touches pk
  frame := applyChange_frame pk

/-- What `ObserveEvent` files under a key is a change of that row. -/
theorem touches_of_observedKey {event : CDCEvent V} {ref : TableRef} {key : String} (href : eventRef event = ref)
    (hkey : observedKey (pk ref) event = some key) : Touches pk event (ref, key) := by
  refine ⟨href, .inr ?_⟩
  rw [observedKey] at hkey
  split at hkey
  · exact .inl hkey
  · exact .inr hkey

end Rows

/-! ## The database -/

/-- The source database, as the backfill sees it. -/
structure Database (V : Type) [ToString V] where
  primaryKey : TableRef → List String
  /-- The rows before the log begins. -/
  rows : Contents V
  /-- A row is stored under the key its columns give. -/
  keyed : ∀ ref key values, rows (ref, key) = some values → pkKeyFromData values (primaryKey ref) = some key
  /-- The key columns of a row as text. -/
  cursor : TableRef → String → List String
  /-- The order of the key. -/
  lt : TableRef → List String → List String → Prop
  lt_irrefl : ∀ ref c, ¬ lt ref c c

namespace Database

variable [ToString V] (db : Database V)

/-- The rows after the log. -/
def source (wal : List (Item V)) : Contents V := (journal db.primaryKey).replay db.rows (changes wal)

/-- A row of a select that starts at the cursor; an empty cursor starts at the
first. -/
def After (ref : TableRef) (cursor : List String) (key : String) : Prop :=
  cursor = [] ∨ db.lt ref cursor (db.cursor ref key)

/-- The chunk is the first `limit` rows after the cursor in key order. -/
structure FirstRows (rows : Contents V) (ref : TableRef) (cursor : List String) (limit : ℕ) (chunk : Chunk V) : Prop where
  mem : ∀ row ∈ chunk.rows, rows (ref, row.key) = some row.values ∧ db.After ref cursor row.key
  sorted : chunk.rows.Pairwise fun a b => db.lt ref (db.cursor ref a.key) (db.cursor ref b.key)
  length : chunk.rows.length ≤ limit
  rest : ∀ key values, rows (ref, key) = some values → db.After ref cursor key →
    { key, values } ∈ chunk.rows ∨
      chunk.rows.length = limit ∧ ∀ row ∈ chunk.rows, db.lt ref (db.cursor ref row.key) (db.cursor ref key)
  lastCursor : chunk.lastCursor = (chunk.rows.getLast?.map fun row => db.cursor ref row.key).getD []

variable {ref : TableRef}

/-- A row that is not past a chunk is in it: the chunk is short, or the row is
at most its last. -/
theorem FirstRows.mem_rows {db : Database V} {rows : Contents V} {cursor : List String} {limit : ℕ}
    {chunk : Chunk V} (h : db.FirstRows rows ref cursor limit chunk) (hlimit : 0 < limit) {key : String}
    {values : Data V} (hrow : rows (ref, key) = some values) (hafter : db.After ref cursor key)
    (hpast : chunk.rows.length < limit ∨ ¬ db.After ref chunk.lastCursor key) : { key, values } ∈ chunk.rows := by
  rcases h.rest key values hrow hafter with hmem | ⟨hfull, hlt⟩
  · exact hmem
  · have hne : chunk.rows ≠ [] := by
      intro hnil
      rw [hnil] at hfull
      exact absurd hfull (Nat.ne_of_lt hlimit)
    have hlast : chunk.lastCursor = db.cursor ref (chunk.rows.getLast hne).key := by
      rw [h.lastCursor, List.getLast?_eq_some_getLast hne]
      rfl
    rcases hpast with hshort | hpast
    · omega
    · exact absurd (.inr (hlast ▸ hlt _ (List.getLast_mem hne))) hpast

/-- No row is after the cursor. -/
theorem firstRows_nil {db : Database V} {rows : Contents V} {cursor : List String} (limit : ℕ)
    (hnone : ∀ key values, rows (ref, key) = some values → ¬ db.After ref cursor key) :
    db.FirstRows rows ref cursor limit { rows := [], lastCursor := [] } where
  mem _ hrow := nomatch hrow
  sorted := .nil
  length := Nat.zero_le limit
  rest key values hrow hafter := absurd hafter (hnone key values hrow)
  lastCursor := rfl

/-- A point between transactions. -/
def Boundary (wal : List (Item V)) (p : ℕ) : Prop :=
  p ≤ wal.length ∧ ∀ event, (wal.take p).getLast? ≠ some (.change event)

/-- The row is there at `p` and no change of it follows. -/
def Unchanged (wal : List (Item V)) (p : ℕ) (ref : TableRef) (key : String) (values : Data V) : Prop :=
  db.source (wal.take p) (ref, key) = some values ∧
    ∀ event ∈ changes (wal.drop p), ¬ Touches db.primaryKey event (ref, key)

/-- An event that `ObserveEvent` files under the row's key. -/
def Observed (events : List (CDCEvent V)) (ref : TableRef) (key : String) : Prop :=
  ∃ event ∈ events, eventRef event = ref ∧ observedKey (db.primaryKey ref) event = some key

theorem observed_append {events events' : List (CDCEvent V)} {key : String} :
    db.Observed (events ++ events') ref key ↔ db.Observed events ref key ∨ db.Observed events' ref key := by
  simp only [Observed, List.mem_append, or_and_right, exists_or]

end Database

/-! ## A database with one table -/

/-- The rows of `users`. -/
def usersRows (rows : List (Row ℕ)) : Contents ℕ := fun (ref, key) =>
  if ref = users then (rows.find? fun row => row.key = key).map Row.values else none

theorem usersRows_eq_some {rows : List (Row ℕ)} {ref : TableRef} {key : String} {values : Data ℕ}
    (h : usersRows rows (ref, key) = some values) : ref = users ∧ { key, values } ∈ rows := by
  simp only [usersRows, Option.ite_none_right_eq_some, Option.map_eq_some_iff] at h
  obtain ⟨href, row, hfind, rfl⟩ := h
  obtain rfl : row.key = key := by simpa using List.find?_some hfind
  exact ⟨href, List.mem_of_find?_eq_some hfind⟩

/-- `users` and its rows; its key is the id, ordered as text. -/
def usersDatabase (rows : List (Row ℕ)) (hkeyed : ∀ row ∈ rows, pkKeyFromData row.values ["id"] = some row.key) :
    Database ℕ where
  primaryKey _ := ["id"]
  rows := usersRows rows
  keyed _ _ _ hrow := hkeyed _ (usersRows_eq_some hrow).2
  cursor _ key := [key]
  lt _ a b := a < b
  lt_irrefl _ := List.lt_irrefl

/-- All rows of `users` fit in a chunk. -/
theorem usersRows_select {db : Database ℕ} (hcursor : ∀ key, db.cursor users key = [key])
    (hlt : ∀ a b, db.lt users a b ↔ a < b) {rows : List (Row ℕ)} {limit : ℕ} (hlimit : rows.length ≤ limit)
    (hsorted : rows.Pairwise fun a b => [a.key] < [b.key])
    (hfind : ∀ row ∈ rows, (rows.find? fun row' => row'.key = row.key) = some row) :
    db.FirstRows (usersRows rows) users [] limit
      { rows, lastCursor := (rows.getLast?.map fun row => [row.key]).getD [] } where
  mem row hrow := ⟨by simp [usersRows, hfind row hrow], .inl rfl⟩
  sorted := hsorted.imp fun h => by rwa [hlt, hcursor, hcursor]
  length := hlimit
  rest key values hrow _ := .inl (usersRows_eq_some hrow).2
  lastCursor := by simp only [hcursor]

def secondUser : Row ℕ := { key := "2", values := [("id", some 2)] }

def twoUsers : Database ℕ := usersDatabase [firstUser, secondUser] (by decide)

/-- `UPDATE users SET visits = 9 WHERE id = 1`. -/
def visited : CDCEvent ℕ := userEvent .update none (some [("id", some 1), ("visits", some 9)])

end Gtc.Backfill
