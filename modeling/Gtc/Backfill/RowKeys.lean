/-
The keys of chunk rows: what `SelectChunk` makes of the rows a select returns,
and what `ObserveEvent` makes of a live event with the same column values.

Both print the primary key's values with `%v` and join them with the unit
separator, so that they agree on every row. The separator is not escaped: two
keys are the same text exactly if the printed values, cut at every separator,
are the same list.
-/
import Gtc.Backfill.Coordinator
import Gtc.Wal.Decoder
import Gtc.Lib.Numerals
import Mathlib.Data.List.Induction

namespace Gtc.Backfill

open Lib

variable {V : Type}

/-! ## The rows of a select -/

/-- `pgconn.FieldDescription`. -/
structure FieldDescription where
  name : String
  dataTypeOID : ℕ
deriving DecidableEq, Repr

/-- `rows.RawValues()`: a text for each field, none for NULL. -/
structure RawRow (fields : List FieldDescription) where
  values : List (Option String)
  length_eq : values.length = fields.length
deriving DecidableEq, Repr

variable {fields : List FieldDescription}

/-- The column of a name, with its raw value. `colIdx` keeps the last index of
a name. -/
def RawRow.column (raw : RawRow fields) (col : String) : Option (FieldDescription × Option String) :=
  ((fields.zip raw.values).filter (·.1.name = col)).getLast?

/-- What the row has in the columns of the primary key. -/
def RawRow.primaryKey (raw : RawRow fields) (pkCols : List String) : List (Option String) :=
  pkCols.map fun col => (raw.column col).bind Prod.snd

/-- The value of one field. -/
def fieldValue (tm : TypeMap V) (f : FieldDescription) : Option String → Option V
  | none => none
  | some text =>
    match decodeText tm f.dataTypeOID text.toByteArray.data.toList with
    | .ok val => val
    | .error _ => some (tm.string text.toByteArray.data.toList)

/-- `values` of `SelectChunk`. -/
def rowValues (tm : TypeMap V) (raw : RawRow fields) : Data V :=
  (fields.zip raw.values).foldl (fun values f => values.set f.1.name (fieldValue tm f.1 f.2)) []

/-- `keyParts`; a column that is not in the map is nil. -/
def keyParts [ToString V] (pkCols : List String) (values : Data V) : List String :=
  pkCols.map fun col => sprint (values.lookup col).join

def selectRow [ToString V] (tm : TypeMap V) (pkCols : List String) (raw : RawRow fields) : Row V :=
  { key := String.intercalate "\x1f" (keyParts pkCols (rowValues tm raw)), values := rowValues tm raw }

/-- `cursorParts`; a NULL is the empty string. -/
def cursorParts (pkCols : List String) (raw : RawRow fields) : List String :=
  (raw.primaryKey pkCols).map (·.getD "")

/-- The first column of the primary key that the select did not return. -/
def missingColumn (pkCols : List String) (fields : List FieldDescription) : Option String :=
  pkCols.find? fun col => !fields.any (·.name == col)

/-- `SelectChunk` on the rows its query returned. -/
def selectChunk [ToString V] (tm : TypeMap V) (schema table : String) (pkCols : List String)
    (raws : List (RawRow fields)) : Except Err (Chunk V) :=
  match missingColumn pkCols fields with
  | some col =>
    .error (.new ("primary key column " ++ goQuote col ++ " missing from " ++ schema ++ "." ++ table ++ " select"))
  | none =>
    .ok { rows := raws.map (selectRow tm pkCols), lastCursor := (raws.getLast?.map (cursorParts pkCols)).getD [] }

/-! ## The columns of a row -/

/-- Writing over the entries of a name. -/
theorem lookup_overwrite (d : Data V) (name : String) (value : Option V) (col : String) :
    (d.map fun c => if c.1 = name then (name, value) else c).lookup col =
      if col = name then (d.lookup col).map fun _ => value else d.lookup col := by
  induction d with
  | nil => simp
  | cons c d ih =>
    obtain ⟨key, old⟩ := c
    rw [List.map_cons, List.lookup_cons]
    by_cases hkey : col = key
    · subst hkey
      by_cases hname : col = name <;> simp [hname]
    · by_cases hname : key = name
      · have hcol : col ≠ name := hname ▸ hkey
        rw [if_pos hname, List.lookup_cons, beq_false_of_ne hcol, beq_false_of_ne hkey]
        exact ih
      · rw [if_neg hname, List.lookup_cons, beq_false_of_ne hkey]
        exact ih

theorem lookup_set (d : Data V) (name : String) (value : Option V) (col : String) :
    (d.set name value).lookup col = if col = name then some value else d.lookup col := by
  rw [Data.set]
  split
  next hany =>
    have hsome : (d.lookup name).isSome := by
      rw [Option.isSome_iff_ne_none, ne_eq, List.lookup_eq_none_iff]
      obtain ⟨c, hc, hname⟩ := List.any_eq_true.mp hany
      intro hnone
      exact absurd (eq_of_beq hname).symm (by simpa using hnone c hc)
    obtain ⟨old, hold⟩ := Option.isSome_iff_exists.mp hsome
    rw [lookup_overwrite]
    split
    next h => rw [h, hold, Option.map_some]
    · rfl
  next hany =>
    have hnone : d.lookup name = none := by
      rw [List.lookup_eq_none_iff]
      intro c hc
      simpa [BEq.comm] using fun h => hany (List.any_eq_true.mpr ⟨c, hc, h⟩)
    rw [List.lookup_append]
    split
    next h => simp [h, hnone]
    next h => simp [List.lookup_cons, beq_false_of_ne h]

/-- The map holds each field's value under its name, the last one if a name
comes twice. -/
theorem lookup_rowValues (tm : TypeMap V) (raw : RawRow fields) (col : String) :
    (rowValues tm raw).lookup col = (raw.column col).map fun f => fieldValue tm f.1 f.2 := by
  rw [rowValues, RawRow.column]
  generalize fields.zip raw.values = columns
  induction columns using List.reverseRecOn with
  | nil => rfl
  | append_singleton columns f ih =>
    rw [List.foldl_concat, lookup_set, ih, List.filter_append]
    by_cases hname : col = f.1.name
    · simp [hname]
    · simp [hname, Ne.symm hname]

theorem column_isSome {pkCols : List String} (h : missingColumn pkCols fields = none) (raw : RawRow fields)
    {col : String} (hcol : col ∈ pkCols) : (raw.column col).isSome := by
  have hfield : ∃ f ∈ fields, f.name = col := by simpa [missingColumn] using List.find?_eq_none.mp h col hcol
  obtain ⟨f, hf, hname⟩ := hfield
  obtain ⟨i, hi, rfl⟩ := List.getElem_of_mem hf
  have hzip : i < (fields.zip raw.values).length := by rwa [List.length_zip, raw.length_eq, Nat.min_self]
  have hmem : (fields.zip raw.values)[i] ∈ (fields.zip raw.values).filter (·.1.name = col) :=
    List.mem_filter.mpr ⟨List.getElem_mem hzip, by simpa using hname⟩
  rw [RawRow.column, List.getLast?_isSome]
  exact List.ne_nil_of_mem hmem

/-! ## Keys -/

/-- An event whose image, the one `ObserveEvent` reads, has the row's values in
the columns of the primary key. -/
def Carries (pkCols : List String) (event : CDCEvent V) (values : Data V) : Prop :=
  ∃ data, (if event.operation = .delete then event.oldData else event.newData) = some data ∧
    ∀ col ∈ pkCols, data.lookup col = values.lookup col

/-- What is left of the key's printed values when they are cut at every unit
separator. -/
def keySegments [ToString V] (pkCols : List String) (values : Data V) : List (List Char) :=
  segments '\x1f' ((keyParts pkCols values).map String.toList)

variable [ToString V]

theorem selectChunk_rows {tm : TypeMap V} {schema table : String} {pkCols : List String} {raws : List (RawRow fields)}
    {chunk : Chunk V} (h : selectChunk tm schema table pkCols raws = .ok chunk) {raw : RawRow fields} {row : Row V}
    (hrow : (raw, row) ∈ raws.zip chunk.rows) :
    missingColumn pkCols fields = none ∧ row = selectRow tm pkCols raw := by
  rw [selectChunk] at h
  split at h
  · cases h
  next hmissing =>
    cases h
    refine ⟨hmissing, ?_⟩
    obtain ⟨i, hi, heq⟩ := List.getElem_of_mem hrow
    rw [List.getElem_zip, List.getElem_map, Prod.mk.injEq] at heq
    rw [← heq.2, heq.1]

/-- Both encoders print the same values and join them in the same way. -/
theorem pkKeyFromData_eq {pkCols : List String} {data values : Data V}
    (hvalues : ∀ col ∈ pkCols, (values.lookup col).isSome)
    (hdata : ∀ col ∈ pkCols, data.lookup col = values.lookup col) :
    pkKeyFromData data pkCols = some (String.intercalate "\x1f" (keyParts pkCols values)) := by
  have hparts : (pkCols.mapM fun col => (data.lookup col).map sprint) = some (keyParts pkCols values) := by
    induction pkCols with
    | nil => rfl
    | cons col cols ih =>
      obtain ⟨val, hval⟩ := Option.isSome_iff_exists.mp (hvalues col List.mem_cons_self)
      have htail := ih (fun c hc => hvalues c (List.mem_cons_of_mem col hc))
        fun c hc => hdata c (List.mem_cons_of_mem col hc)
      rw [List.mapM_cons, htail, hdata col List.mem_cons_self, hval]
      simp [keyParts, hval]
  rw [pkKeyFromData, hparts]
  rfl

theorem key_eq_iff (pkCols : List String) (values values' : Data V) :
    String.intercalate "\x1f" (keyParts pkCols values) = String.intercalate "\x1f" (keyParts pkCols values') ↔
      keySegments pkCols values = keySegments pkCols values' := by
  rw [← String.toList_inj, String.toList_intercalate, String.toList_intercalate]
  exact intercalate_eq_iff_segments (by simp [keyParts])

/-- **Row keys identify rows exactly up to the separators in them.** A live
event with a row's key values is filed under the row's own key. Two rows with
different primary keys get different keys exactly if their printed key values
do not become the same list when cut at every unit separator. -/
theorem row_keys_identify_iff {tm : TypeMap V} {schema table : String} {pkCols : List String}
    {raws raws' : List (RawRow fields)} {chunk chunk' : Chunk V}
    (hsel : selectChunk tm schema table pkCols raws = .ok chunk)
    (hsel' : selectChunk tm schema table pkCols raws' = .ok chunk')
    {raw raw' : RawRow fields} {row row' : Row V}
    (hrow : (raw, row) ∈ raws.zip chunk.rows) (hrow' : (raw', row') ∈ raws'.zip chunk'.rows) :
    ((raw.primaryKey pkCols ≠ raw'.primaryKey pkCols → row.key ≠ row'.key) ∧
      ∀ event : CDCEvent V, Carries pkCols event row.values → observedKey pkCols event = some row.key) ↔
    (raw.primaryKey pkCols ≠ raw'.primaryKey pkCols →
      keySegments pkCols row.values ≠ keySegments pkCols row'.values) := by
  obtain ⟨hcols, rfl⟩ := selectChunk_rows hsel hrow
  obtain ⟨-, rfl⟩ := selectChunk_rows hsel' hrow'
  have hagree : ∀ event : CDCEvent V, Carries pkCols event (selectRow tm pkCols raw).values →
      observedKey pkCols event = some (selectRow tm pkCols raw).key := by
    rintro event ⟨data, himage, hdata⟩
    rw [observedKey, himage, rowKey, Option.bind_some]
    refine pkKeyFromData_eq (fun col hcol => ?_) hdata
    rw [lookup_rowValues, Option.isSome_map]
    exact column_isSome hcols raw hcol
  rw [and_iff_left hagree]
  exact imp_congr_right fun _ => not_congr (key_eq_iff pkCols _ _)

/-! ## Composite text keys -/

def textOID : ℕ := 25

/-- A type map that has `text` only, for texts in ASCII. -/
def asciiTypes : TypeMap String where
  typeForOID oid := if oid = textOID then some ⟨"text", fun data => .ok (some (ascii data))⟩ else none
  string := ascii
where
  ascii (data : Bytes) : String := String.ofList (data.map fun b => Char.ofNat b.toNat)

/-- A table with the primary key `(tenant, name)`. -/
def tenantFields : List FieldDescription := [⟨"tenant", textOID⟩, ⟨"name", textOID⟩]

def tenantRow (tenant name : String) : RawRow tenantFields := ⟨[some tenant, some name], rfl⟩

/-- A live insert of a row. -/
def tenantEvent (tenant name : String) : CDCEvent String :=
  { id := "1", operation := .insert, schema := "public", table := "members", oldData := none
    newData := some [("tenant", some tenant), ("name", some name)]
    unchangedToastColumns := [], metadata := { lsn := "0/1", transactionID := 1, timestamp := 0 } }

/-- Ordinary texts keep two rows apart. -/
theorem row_keys_identify_plain :
    (tenantRow "ab" "c").primaryKey ["tenant", "name"] ≠ (tenantRow "a" "bc").primaryKey ["tenant", "name"] ∧
      (selectRow asciiTypes ["tenant", "name"] (tenantRow "ab" "c")).key ≠
        (selectRow asciiTypes ["tenant", "name"] (tenantRow "a" "bc")).key :=
  have hsel : selectChunk asciiTypes "public" "members" ["tenant", "name"] [tenantRow "ab" "c", tenantRow "a" "bc"] =
      .ok ⟨[selectRow asciiTypes ["tenant", "name"] (tenantRow "ab" "c"),
        selectRow asciiTypes ["tenant", "name"] (tenantRow "a" "bc")], ["a", "bc"]⟩ := by decide +kernel
  have hne : (tenantRow "ab" "c").primaryKey ["tenant", "name"] ≠ (tenantRow "a" "bc").primaryKey ["tenant", "name"] := by
    decide +kernel
  ⟨hne, ((row_keys_identify_iff hsel hsel List.mem_cons_self (List.mem_cons_of_mem _ List.mem_cons_self)).mpr
    fun _ => by decide +kernel).1 hne⟩

/-- The rows `(a␟b, c)` and `(a, b␟c)` have one key, so that an insert of the
second takes the first out of its chunk. -/
theorem separator_in_text_merges_keys :
    (tenantRow "a\x1fb" "c").primaryKey ["tenant", "name"] ≠ (tenantRow "a" "b\x1fc").primaryKey ["tenant", "name"] ∧
      ∃ row row', selectChunk asciiTypes "public" "members" ["tenant", "name"]
          [tenantRow "a\x1fb" "c", tenantRow "a" "b\x1fc"] = .ok ⟨[row, row'], ["a", "b\x1fc"]⟩ ∧
        row.key = row'.key ∧ observedKey ["tenant", "name"] (tenantEvent "a" "b\x1fc") = some row.key :=
  ⟨by decide +kernel, selectRow asciiTypes ["tenant", "name"] (tenantRow "a\x1fb" "c"),
    selectRow asciiTypes ["tenant", "name"] (tenantRow "a" "b\x1fc"), by decide +kernel⟩

end Gtc.Backfill
