/-
Column values as Go values: what `pgtype` decodes a column into, the text `%v`
prints of it, and what is left of it after `encoding/json` wrote it and read it
back into an `any`.

A value of a `json` or `jsonb` column is what `encoding/json` reads, and comes
back as it was. An integer comes back as a double, a timestamp and a byte array
as strings. `GoValue.sprint_unmarshal_iff` says whose text is then the same.
-/
import Gtc.Domain
import Gtc.Lib.Float64

namespace Gtc

open Lib

/-! ## Values -/

/-- What `encoding/json` reads into an `any`; nil is `none` at the use. The
members of a map are listed in the order of their keys. -/
inductive JSONValue where
  | bool (b : Bool)
  | float (f : Float64)
  | string (s : String)
  | slice (items : List (Option JSONValue))
  | map (members : List (String × Option JSONValue))

/-- `time.Time`, as its location shows it. -/
structure GoTime where
  year : ℤ
  month : ℕ
  day : ℕ
  hour : ℕ
  minute : ℕ
  second : ℕ
  nanosecond : ℕ
  /-- Minutes east of UTC. -/
  offset : ℤ
  /-- The name of the zone, or its offset if it has none. -/
  zone : String
  offset_lt : offset.natAbs < 24 * 60

/-- A non-nil column value. -/
inductive GoValue where
  | int (n : Int64)
  | bool (b : Bool)
  | string (s : String)
  | time (t : GoTime)
  | bytes (b : List UInt8)
  /-- The value of a `json` or `jsonb` column. -/
  | json (v : JSONValue)

/-! ## `%v` -/

mutual

def JSONValue.sprint : JSONValue → String
  | .bool b => toString b
  | .float f => f.format
  | .string s => s
  | .slice items => "[" ++ " ".intercalate (sprintItems items) ++ "]"
  | .map members => "map[" ++ " ".intercalate (sprintMembers members) ++ "]"

def sprintItems : List (Option JSONValue) → List String
  | [] => []
  | item :: items => sprintNullable item :: sprintItems items

def sprintMembers : List (String × Option JSONValue) → List String
  | [] => []
  | member :: members => sprintMember member :: sprintMembers members

def sprintMember : String × Option JSONValue → String
  | (key, value) => key ++ ":" ++ sprintNullable value

def sprintNullable : Option JSONValue → String
  | none => "<nil>"
  | some value => value.sprint

end

/-- A number with zeros in front. -/
def zeroPadded (width n : ℕ) : String := String.ofList ((Nat.toDigits 10 n).leftpad width '0')

namespace GoTime

variable (t : GoTime)

/-- `2006-01-02`. -/
def date : String :=
  (if t.year < 0 then "-" else "") ++ zeroPadded 4 t.year.natAbs ++ "-" ++ zeroPadded 2 t.month ++ "-" ++
    zeroPadded 2 t.day

/-- `.999999999`. -/
def fraction : String :=
  if t.nanosecond = 0 then ""
  else "." ++ String.ofList (significant ((Nat.toDigits 10 t.nanosecond).leftpad 9 '0'))

/-- `15:04:05.999999999`. -/
def clock : String :=
  zeroPadded 2 t.hour ++ ":" ++ zeroPadded 2 t.minute ++ ":" ++ zeroPadded 2 t.second ++ t.fraction

/-- `-07:00` and `-0700`, by what stands between hours and minutes. -/
def offsetText (sep : String) : String :=
  (if t.offset < 0 then "-" else "+") ++ zeroPadded 2 (t.offset.natAbs / 60) ++ sep ++
    zeroPadded 2 (t.offset.natAbs % 60)

/-- `Time.String`: `2006-01-02 15:04:05.999999999 -0700 MST`. -/
def string : String := t.date ++ (" " ++ (t.clock ++ " " ++ t.offsetText "" ++ " " ++ t.zone))

/-- `time.RFC3339Nano`: `2006-01-02T15:04:05.999999999Z07:00`. -/
def rfc3339 : String := t.date ++ ("T" ++ (t.clock ++ if t.offset = 0 then "Z" else t.offsetText ":"))

end GoTime

def sprintBytes (b : List UInt8) : String := "[" ++ " ".intercalate (b.map fun x => toString x.toNat) ++ "]"

def GoValue.sprint : GoValue → String
  | .int n => toString n.toInt
  | .bool b => toString b
  | .string s => s
  | .time t => t.string
  | .bytes b => sprintBytes b
  | .json v => v.sprint

/-! ## `encoding/json` -/

/-- A JSON text as it is parsed; null is `none` at the use. -/
inductive JSONText where
  | bool (b : Bool)
  /-- A number written as an integer. -/
  | integer (n : ℤ)
  /-- A number written from a double. -/
  | float (f : Float64)
  | string (s : String)
  | array (items : List (Option JSONText))
  | object (members : List (String × Option JSONText))

mutual

/-- `json.Marshal` of what `json.Unmarshal` read. -/
def JSONValue.marshal : JSONValue → JSONText
  | .bool b => .bool b
  | .float f => .float f
  | .string s => .string s
  | .slice items => .array (marshalItems items)
  | .map members => .object (marshalMembers members)

def marshalItems : List (Option JSONValue) → List (Option JSONText)
  | [] => []
  | item :: items => marshalNullable item :: marshalItems items

def marshalMembers : List (String × Option JSONValue) → List (String × Option JSONText)
  | [] => []
  | member :: members => marshalMember member :: marshalMembers members

def marshalMember : String × Option JSONValue → String × Option JSONText
  | (key, value) => (key, marshalNullable value)

def marshalNullable : Option JSONValue → Option JSONText
  | none => none
  | some value => some value.marshal

end

mutual

/-- `json.Unmarshal` into an `any`: every number is a double. -/
def JSONText.unmarshal : JSONText → JSONValue
  | .bool b => .bool b
  | .integer n => .float (.ofInt n)
  | .float f => .float f
  | .string s => .string s
  | .array items => .slice (unmarshalItems items)
  | .object members => .map (unmarshalMembers members)

def unmarshalItems : List (Option JSONText) → List (Option JSONValue)
  | [] => []
  | item :: items => unmarshalNullable item :: unmarshalItems items

def unmarshalMembers : List (String × Option JSONText) → List (String × Option JSONValue)
  | [] => []
  | member :: members => unmarshalMember member :: unmarshalMembers members

def unmarshalMember : String × Option JSONText → String × Option JSONValue
  | (key, value) => (key, unmarshalNullable value)

def unmarshalNullable : Option JSONText → Option JSONValue
  | none => none
  | some value => some value.unmarshal

end

def base64Alphabet : List Char :=
  "ABCDEFGHIJKLMNOPQRSTUVWXYZabcdefghijklmnopqrstuvwxyz0123456789+/".toList

def base64Char (n : ℕ) : Char := base64Alphabet.getD (n % 64) 'A'

/-- `base64.StdEncoding`. -/
def base64 : List UInt8 → List Char
  | [] => []
  | [a] => [base64Char (a.toNat / 4), base64Char (a.toNat * 16), '=', '=']
  | [a, b] =>
    [base64Char (a.toNat / 4), base64Char (a.toNat * 16 + b.toNat / 16), base64Char (b.toNat * 4), '=']
  | a :: b :: c :: rest =>
    base64Char (a.toNat / 4) :: base64Char (a.toNat * 16 + b.toNat / 16) ::
      base64Char (b.toNat * 4 + c.toNat / 64) :: base64Char c.toNat :: base64 rest

/-- The `json.MarshalerError` around the error of `Time.MarshalJSON`. -/
def errYear : Err :=
  .wrap "json: error calling MarshalJSON for type time.Time: Time.MarshalJSON: year outside of range [0,9999]"
    (.new "Time.MarshalJSON: year outside of range [0,9999]")

/-- `json.Marshal` of a column value. -/
def GoValue.marshal : GoValue → Except Err JSONText
  | .int n => .ok (.integer n.toInt)
  | .bool b => .ok (.bool b)
  | .string s => .ok (.string s)
  | .time t => if 0 ≤ t.year ∧ t.year ≤ 9999 then .ok (.string t.rfc3339) else .error errYear
  | .bytes b => .ok (.string (String.ofList (base64 b)))
  | .json v => .ok v.marshal

/-! ## What comes back -/

mutual

/-- What was read from JSON comes back, at every depth. -/
theorem JSONValue.unmarshal_marshal : ∀ v : JSONValue, v.marshal.unmarshal = v
  | .bool _ | .float _ | .string _ => by simp only [JSONValue.marshal, JSONText.unmarshal]
  | .slice items => by rw [JSONValue.marshal, JSONText.unmarshal, unmarshalItems_marshal]
  | .map members => by rw [JSONValue.marshal, JSONText.unmarshal, unmarshalMembers_marshal]

theorem unmarshalItems_marshal : ∀ items, unmarshalItems (marshalItems items) = items
  | [] => by simp only [marshalItems, unmarshalItems]
  | item :: items => by rw [marshalItems, unmarshalItems, unmarshalNullable_marshal, unmarshalItems_marshal]

theorem unmarshalMembers_marshal : ∀ members, unmarshalMembers (marshalMembers members) = members
  | [] => by simp only [marshalMembers, unmarshalMembers]
  | member :: members => by rw [marshalMembers, unmarshalMembers, unmarshalMember_marshal, unmarshalMembers_marshal]

theorem unmarshalMember_marshal : ∀ member, unmarshalMember (marshalMember member) = member
  | (key, value) => by rw [marshalMember, unmarshalMember, unmarshalNullable_marshal]

theorem unmarshalNullable_marshal : ∀ v, unmarshalNullable (marshalNullable v) = v
  | none => by simp only [marshalNullable, unmarshalNullable]
  | some value => by rw [marshalNullable, unmarshalNullable, JSONValue.unmarshal_marshal]

end

/-- A timestamp comes back with a `T` between its date and its time of day. -/
theorem GoTime.rfc3339_ne_string (t : GoTime) : t.rfc3339 ≠ t.string := by
  rw [GoTime.rfc3339, GoTime.string, ne_eq, String.append_right_inj]
  intro h
  have hchars := congrArg String.toList h
  simp at hchars

theorem bracket_notMem_base64Alphabet : '[' ∉ base64Alphabet := by decide

theorem base64Char_ne_bracket (n : ℕ) : base64Char n ≠ '[' := by
  have hlt : n % 64 < base64Alphabet.length := Nat.mod_lt n (by decide)
  rw [base64Char, List.getD_eq_getElem?_getD, List.getElem?_eq_getElem hlt, Option.getD_some]
  exact fun h => bracket_notMem_base64Alphabet (h ▸ List.getElem_mem hlt)

/-- A byte array is printed in brackets, which base64 does not have. -/
theorem base64_ne_sprintBytes (b : List UInt8) : String.ofList (base64 b) ≠ sprintBytes b := by
  intro h
  have hchars := congrArg String.toList h
  rw [sprintBytes] at hchars
  rcases b with _ | ⟨a, _ | ⟨b, _ | ⟨c, rest⟩⟩⟩
  · simp [base64] at hchars
  all_goals simp [base64, base64Char_ne_bracket] at hchars

/-- The values that are printed as before when they come back. -/
def GoValue.KeepsText : GoValue → Prop
  | .int n => n.toInt.natAbs < 1000000
  | .time _ | .bytes _ => False
  | .bool _ | .string _ | .json _ => True

instance : ∀ v : GoValue, Decidable v.KeepsText
  | .int n => inferInstanceAs (Decidable (n.toInt.natAbs < 1000000))
  | .time _ | .bytes _ => inferInstanceAs (Decidable False)
  | .bool _ | .string _ | .json _ => inferInstanceAs (Decidable True)

theorem GoValue.sprint_unmarshal_iff {v : GoValue} {text : JSONText} (h : v.marshal = .ok text) :
    text.unmarshal.sprint = v.sprint ↔ v.KeepsText := by
  cases v with
  | int n =>
    cases h
    simp only [JSONText.unmarshal, JSONValue.sprint, GoValue.sprint, GoValue.KeepsText, Float64.ofInt, Float64.format]
    exact formatWhole_roundWhole_iff n.toInt
  | bool b =>
    cases h
    simp only [JSONText.unmarshal, JSONValue.sprint, GoValue.sprint, GoValue.KeepsText]
  | string s =>
    cases h
    simp only [JSONText.unmarshal, JSONValue.sprint, GoValue.sprint, GoValue.KeepsText]
  | time t =>
    rw [GoValue.marshal] at h
    split at h
    · cases h
      simp only [JSONText.unmarshal, JSONValue.sprint, GoValue.sprint, GoValue.KeepsText, iff_false]
      exact t.rfc3339_ne_string
    · cases h
  | bytes b =>
    cases h
    simp only [JSONText.unmarshal, JSONValue.sprint, GoValue.sprint, GoValue.KeepsText, iff_false]
    exact base64_ne_sprintBytes b
  | json v =>
    cases h
    simp only [JSONValue.unmarshal_marshal, GoValue.sprint, GoValue.KeepsText]

end Gtc
