/-
The publication's name in three texts: the literal `ensurePublication` looks it
up with, the identifier it creates it with, and the plugin argument that
replication is started with.

The first two are quoted. The third puts the name between apostrophes as it is,
and the server reads it as a list of identifiers, so that the name has to be
plain for the three to be one publication (`publication_agrees_iff`).
-/
import Gtc.Lib.Quoting

namespace Gtc

open Lib

def apostrophe : Char := Char.ofNat 39

def quotationMark : Char := Char.ofNat 34

/-! ## What the reader sends -/

def quoteLiteral (s : String) : String := String.ofList (quoted apostrophe s.toList)

/-- `pgx.Identifier.Sanitize`, for an identifier of one part. -/
def sanitize (s : String) : String := String.ofList (quoted quotationMark (s.toList.filter (· ≠ '\x00')))

/-- `ensurePublication`: the lookup. -/
def publicationQuery (publicationName : String) : String :=
  "SELECT 1 FROM pg_publication WHERE pubname = " ++ quoteLiteral publicationName

/-- `ensurePublication`, when the lookup finds nothing. -/
def createPublication (publicationName : String) : String :=
  "CREATE PUBLICATION " ++ sanitize publicationName ++ " FOR ALL TABLES"

/-- `startReplicationWithRetry`. -/
def publicationArgument (publicationName : String) : String := "publication_names '" ++ publicationName ++ "'"

/-- `Config.Validate` wants a name. -/
def validPublicationName (publicationName : String) : Bool := publicationName ≠ ""

/-! ## What the server reads -/

/-- What stands after the keywords of a statement. -/
def afterKeywords (keywords statement : String) : List Char := statement.toList.drop keywords.toList.length

/-- The literal that a statement ends with. -/
def literalAfter (keywords statement : String) : Option (List Char) :=
  match readQuoted apostrophe (afterKeywords keywords statement) with
  | some (value, []) => some value
  | _ => none

/-- The quoted identifier between two parts of a statement. -/
def identifierBetween (keywords rest statement : String) : Option (List Char) :=
  match readQuoted quotationMark (afterKeywords keywords statement) with
  | some (name, found) => if found = rest.toList then some name else none
  | none => none

/-- `SplitIdentifierString`: commas between identifiers, and identifiers that are not
quoted in lower case. -/
def identifierList : WordList where
  separator := ','
  quote := quotationMark
  blank c := c ∈ [' ', '\t', '\n', '\r', '\x0b', '\x0c']
  fold := Char.toLower

/-- The name a lookup asks for. -/
def lookedUp (query : String) : Option String :=
  (literalAfter "SELECT 1 FROM pg_publication WHERE pubname = " query).map String.ofList

/-- The name of the publication a statement creates. -/
def created (statement : String) : Option String :=
  (identifierBetween "CREATE PUBLICATION " " FOR ALL TABLES" statement).map String.ofList

/-- The publications that replication is asked for. -/
def streamed (argument : String) : Option (List String) :=
  ((literalAfter "publication_names " argument).bind identifierList.read).map (·.map String.ofList)

/-! ## One publication -/

theorem afterKeywords_append (keywords rest : String) : afterKeywords keywords (keywords ++ rest) = rest.toList := by
  rw [afterKeywords, String.toList_append, List.drop_left]

theorem literalAfter_quoteLiteral (keywords s : String) : literalAfter keywords (keywords ++ quoteLiteral s) = some s.toList := by
  have hread : readQuoted apostrophe (quoted apostrophe s.toList ++ []) = some (s.toList, []) := readQuoted_quoted (by simp) _
  rw [List.append_nil] at hread
  rw [literalAfter, afterKeywords_append, quoteLiteral, String.toList_ofList, hread]

theorem identifierBetween_sanitize (keywords s : String) {rest : String} (hrest : rest.toList.head? ≠ some quotationMark) :
    identifierBetween keywords rest (keywords ++ sanitize s ++ rest) = some (s.toList.filter (· ≠ '\x00')) := by
  rw [identifierBetween, String.append_assoc, afterKeywords_append, String.toList_append, sanitize, String.toList_ofList,
    readQuoted_quoted hrest]
  exact if_pos rfl

/-- The lookup asks for the name as it is configured. -/
theorem lookedUp_query (name : String) : lookedUp (publicationQuery name) = some name := by
  have hliteral := literalAfter_quoteLiteral "SELECT 1 FROM pg_publication WHERE pubname = " name
  exact Option.map_eq_some_iff.mpr ⟨_, hliteral, String.ofList_toList⟩

/-- The identifier is the name without its NULs. -/
theorem created_statement (name : String) :
    created (createPublication name) = some (String.ofList (name.toList.filter (· ≠ '\x00'))) := by
  have hidentifier := @identifierBetween_sanitize "CREATE PUBLICATION " name " FOR ALL TABLES" (by decide)
  exact Option.map_eq_some_iff.mpr ⟨_, hidentifier, rfl⟩

/-- A text that is put between apostrophes as it is. -/
theorem literalAfter_bare (keywords s : String) {value : List Char}
    (h : literalAfter keywords (keywords ++ ("'" ++ s ++ "'")) = some value) :
    value.length ≤ s.toList.length ∧ (value.length = s.toList.length → value = s.toList ∧ apostrophe ∉ s.toList) := by
  have htext : ("'" ++ s ++ "'").toList = apostrophe :: (s.toList ++ [apostrophe]) := by simp [apostrophe]
  rw [literalAfter, afterKeywords_append, htext] at h
  split at h
  · rename_i found hread
    cases h
    have hbody : readBody apostrophe (s.toList ++ [apostrophe]) = some (value, []) := by simpa [readQuoted] using hread
    obtain ⟨hle, hsame⟩ := readBody_length hbody
    simp only [List.length_append, List.length_singleton, List.length_nil] at hle hsame
    refine ⟨by omega, fun hlength => ?_⟩
    obtain ⟨heq, hnot⟩ := hsame (by omega)
    obtain rfl : s.toList = value := List.append_cancel_right heq
    exact ⟨rfl, hnot⟩
  · cases h

theorem literalAfter_plain (keywords : String) {s : String} (h : apostrophe ∉ s.toList) :
    literalAfter keywords (keywords ++ ("'" ++ s ++ "'")) = some s.toList := by
  have htext : ("'" ++ s ++ "'").toList = apostrophe :: (s.toList ++ [apostrophe]) := by simp [apostrophe]
  have hread : readQuoted apostrophe (apostrophe :: (s.toList ++ [apostrophe])) = some (s.toList, []) := by
    simpa [readQuoted] using (readBody_unquoted_iff s.toList).mpr h
  rw [literalAfter, afterKeywords_append, htext, hread]

theorem publicationArgument_eq (name : String) :
    publicationArgument name = "publication_names " ++ ("'" ++ name ++ "'") := by
  have htext : "publication_names '" = "publication_names " ++ "'" := by decide
  unfold publicationArgument
  rw [htext]
  simp only [String.append_assoc]

/-- Replication is started with the publication of this name and no other exactly if
the name is read back from between the apostrophes and is the one identifier it
spells. -/
theorem streamed_eq_iff {name : String} : streamed (publicationArgument name) = some [name] ↔
    name.toList ≠ [] ∧ name.toList.head? ≠ some quotationMark ∧ ∀ c ∈ name.toList,
      c ≠ apostrophe ∧ c ≠ ',' ∧ identifierList.blank c = false ∧ c.toLower = c := by
  constructor
  · intro h
    obtain ⟨names, hnames, heq⟩ := Option.map_eq_some_iff.mp h
    obtain ⟨value, hvalue, hread⟩ := Option.bind_eq_some_iff.mp hnames
    rw [publicationArgument_eq] at hvalue
    obtain ⟨hle, hsame⟩ := literalAfter_bare _ _ hvalue
    obtain ⟨word, rfl, hword⟩ := List.map_eq_singleton_iff.mp heq
    obtain rfl : word = name.toList := by rw [← hword, String.toList_ofList]
    -- the value is no longer than the name, and the name no longer than the value
    have hback := WordList.read_length hread
    obtain ⟨rfl, hnot⟩ := hsame (Nat.le_antisymm hle hback)
    obtain ⟨hne, hquote, hall⟩ := WordList.read_eq_self_iff.mp hread
    exact ⟨hne, hquote, fun c hc => ⟨fun heq => hnot (heq ▸ hc), hall c hc⟩⟩
  · rintro ⟨hne, hquote, hall⟩
    have hvalue := literalAfter_plain "publication_names " fun hmem => (hall _ hmem).1 rfl
    rw [← publicationArgument_eq] at hvalue
    have hread : identifierList.read name.toList = some [name.toList] :=
      WordList.read_eq_self_iff.mpr ⟨hne, hquote, fun c hc => (hall c hc).2⟩
    refine Option.map_eq_some_iff.mpr ⟨_, Option.bind_eq_some_iff.mpr ⟨_, hvalue, hread⟩, ?_⟩
    simp

/-- A name that means itself in all three texts. -/
def PlainName (name : String) : Prop :=
  name.toList.head? ≠ some quotationMark ∧ ∀ c ∈ name.toList,
    c ≠ '\x00' ∧ c ≠ apostrophe ∧ c ≠ ',' ∧ identifierList.blank c = false ∧ c.toLower = c

instance (name : String) : Decidable (PlainName name) := @instDecidableAnd _ _ _ (List.decidableBAll _ _)

theorem created_eq_iff {name : String} : created (createPublication name) = some name ↔ ∀ c ∈ name.toList, c ≠ '\x00' := by
  rw [created_statement, Option.some.injEq, ← String.toList_inj, String.toList_ofList, List.filter_eq_self]
  simp

/-- **One publication name**: the publication that is looked up, the one that is created
and the one that replication is started with are the same single one exactly if the
name is plain: it does not start with a quotation mark and holds no NUL, apostrophe,
comma, blank or capital letter. -/
theorem publication_agrees_iff {name : String} (hvalid : validPublicationName name = true) :
    (∃ publication, lookedUp (publicationQuery name) = some publication ∧
      created (createPublication name) = some publication ∧
      streamed (publicationArgument name) = some [publication]) ↔ PlainName name := by
  have hne : name.toList ≠ [] := by simpa [validPublicationName] using hvalid
  constructor
  · rintro ⟨publication, hlooked, hcreated, hstreamed⟩
    rw [lookedUp_query, Option.some.injEq] at hlooked
    subst hlooked
    have hnul := created_eq_iff.mp hcreated
    obtain ⟨-, hquote, hall⟩ := streamed_eq_iff.mp hstreamed
    exact ⟨hquote, fun c hc => ⟨hnul c hc, hall c hc⟩⟩
  · rintro ⟨hquote, hall⟩
    exact ⟨name, lookedUp_query name, created_eq_iff.mpr fun c hc => (hall c hc).1,
      streamed_eq_iff.mpr ⟨hne, hquote, fun c hc => (hall c hc).2⟩⟩

/-- The default name. -/
theorem publication_agrees_default :
    ∃ publication, lookedUp (publicationQuery "cdc_demo_publication") = some publication ∧
      created (createPublication "cdc_demo_publication") = some publication ∧
      streamed (publicationArgument "cdc_demo_publication") = some [publication] :=
  (publication_agrees_iff (by decide)).mpr (by decide)

/-- A name with a capital letter is looked up and created, and another publication is
streamed from. -/
theorem publication_name_folded :
    validPublicationName "Orders" = true ∧ lookedUp (publicationQuery "Orders") = some "Orders" ∧
      created (createPublication "Orders") = some "Orders" ∧
      streamed (publicationArgument "Orders") = some ["orders"] := by
  refine ⟨by decide, lookedUp_query _, created_eq_iff.mpr (by simp), ?_⟩
  have hvalue := literalAfter_plain "publication_names " (s := "Orders") (by decide)
  have hread : identifierList.read "Orders".toList = some ["orders".toList] := by decide
  rw [← publicationArgument_eq] at hvalue
  exact Option.map_eq_some_iff.mpr ⟨_, Option.bind_eq_some_iff.mpr ⟨_, hvalue, hread⟩, by simp⟩

end Gtc
