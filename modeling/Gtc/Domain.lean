/-
The data the pipeline passes around: change events, errors as Go builds and
inspects them, dead-letter entries, and log positions.

Column values are `any` in the source and nothing here looks inside one, so
`V` stands for the non-nil values: a column holds `some v`, or `none` for nil
(SQL NULL).
-/
import Gtc.Lib.Numerals

namespace Gtc

/-! ## Log positions -/

/-- `pglogrepl.LSN`. -/
abbrev LSN := ℕ

/-- `LSN.String`: the high and the low 32 bits, in hexadecimal. -/
def LSN.string (lsn : LSN) : String := Lib.hexUpper (lsn / 0x100000000) ++ "/" ++ Lib.hexUpper (lsn % 0x100000000)

theorem LSN.toList_string (lsn : LSN) : lsn.string.toList =
    Lib.hexDigits (lsn / 0x100000000) ++ '/' :: Lib.hexDigits (lsn % 0x100000000) := by
  simp [LSN.string, Lib.hexUpper]

theorem LSN.string_inj {a b : ℕ} (h : LSN.string a = LSN.string b) : a = b := by
  have htext := congrArg String.toList h
  rw [LSN.toList_string, LSN.toList_string] at htext
  obtain ⟨hhigh, hlow⟩ := Lib.append_cons_inj_of_notMem (Lib.notMem_hexDigits (by decide) _)
    (Lib.notMem_hexDigits (by decide) _) htext
  have hdiv := Lib.hexDigits_inj hhigh
  have hmod := Lib.hexDigits_inj hlow
  omega

theorem LSN.dash_notMem_string (lsn : LSN) : '-' ∉ lsn.string.toList := by
  rw [LSN.toList_string]
  intro hm
  rcases List.mem_append.mp hm with hm | hm
  · exact Lib.notMem_hexDigits (by decide) _ hm
  · rcases List.mem_cons.mp hm with hm | hm
    · exact absurd hm (by decide)
    · exact Lib.notMem_hexDigits (by decide) _ hm

/-! ## Events -/

inductive Operation where
  | insert
  | update
  | delete
  | truncate
  /-- A row emitted by a backfill, not by a live change. -/
  | read
deriving DecidableEq, Repr

def Operation.string : Operation → String
  | .insert => "INSERT"
  | .update => "UPDATE"
  | .delete => "DELETE"
  | .truncate => "TRUNCATE"
  | .read => "READ"

/-- A row's columns, `map[string]any`. -/
abbrev Data (V : Type) := List (String × Option V)

structure EventMetadata where
  lsn : String
  transactionID : ℕ
  timestamp : ℕ
deriving DecidableEq, Repr

structure CDCEvent (V : Type) where
  id : String
  operation : Operation
  schema : String
  table : String
  oldData : Option (Data V)
  newData : Option (Data V)
  /-- Columns left out of `newData` because their TOASTed value did not
  change and is not in the WAL record. -/
  unchangedToastColumns : List String
  metadata : EventMetadata
deriving DecidableEq, Repr

/-- An event with nothing but an identifier. -/
def bareEvent {V : Type} (id : String) : CDCEvent V :=
  { id, operation := .insert, schema := "public", table := "users", oldData := none, newData := some [],
    unchangedToastColumns := [], metadata := { lsn := id, transactionID := 0, timestamp := 0 } }

/-! ## Errors -/

/-- A character as `strconv.Quote` writes it; beyond ASCII every character counts as
printable. -/
def quoteRune (c : Char) : String :=
  match c.toNat with
  | 0x07 => "\\a"
  | 0x08 => "\\b"
  | 0x09 => "\\t"
  | 0x0a => "\\n"
  | 0x0b => "\\v"
  | 0x0c => "\\f"
  | 0x0d => "\\r"
  | 0x22 => "\\\""
  | 0x5c => "\\\\"
  | n => if n < 0x20 ∨ n = 0x7f then String.ofList ['\\', 'x', (n / 16).digitChar, (n % 16).digitChar] else c.toString

/-- `%q`. -/
def goQuote (s : String) : String := "\"" ++ String.join (s.toList.map quoteRune) ++ "\""

/-- A Go error: the sentinels the pipeline compares against, other errors by
their text, and the ways it wraps them. -/
inductive Err where
  | circuitOpen
  | shuttingDown
  | sinkProcessFailed
  | deadlineExceeded
  | canceled
  /-- `gobreaker.ErrOpenState` and `gobreaker.ErrTooManyRequests`. -/
  | openState
  | tooManyRequests
  | new (text : String)
  /-- `domain.PermanentError`. -/
  | permanent (err : Err)
  /-- `fmt.Errorf` with one `%w`; `text` is the whole message. -/
  | wrap (text : String) (err : Err)
  /-- `errors.Join`, which puts a line break between the two messages, and `fmt.Errorf` of
  `"%w: %w"`. -/
  | join (sep : String) (err₁ err₂ : Err)
deriving DecidableEq, Repr

namespace Err

/-- `err.Error()`. -/
def error : Err → String
  | circuitOpen => "circuit breaker is open"
  | shuttingDown => "service is shutting down"
  | sinkProcessFailed => "sink processing failed"
  | deadlineExceeded => "context deadline exceeded"
  | canceled => "context canceled"
  | openState => "circuit breaker is open"
  | tooManyRequests => "too many requests"
  | new text => text
  | permanent err => err.error
  | wrap text _ => text
  | join sep err₁ err₂ => err₁.error ++ sep ++ err₂.error

/-- Whether the error, or one it wraps, satisfies `p`: the walk of
`errors.Is` and `errors.As`. -/
def any (p : Err → Bool) : Err → Bool
  | permanent err => p (permanent err) || err.any p
  | wrap text err => p (wrap text err) || err.any p
  | join sep err₁ err₂ => p (join sep err₁ err₂) || err₁.any p || err₂.any p
  | err => p err

/-- `errors.Is(err, target)`. -/
def is (err target : Err) : Bool := err.any (· == target)

/-- `domain.IsPermanent`. -/
def isPermanent (err : Err) : Bool :=
  err.any fun
    | permanent _ => true
    | _ => false

end Err

/-! ## Dead letters -/

structure DeadLetterEntry (V : Type) where
  /-- `<sink>:<event_id>`. -/
  id : String
  sinkName : String
  schema : String
  table : String
  operation : String
  lsn : String
  error : String
  attempts : ℕ
  firstFailedAt : ℕ
  lastFailedAt : ℕ
  event : CDCEvent V
deriving DecidableEq, Repr

end Gtc
