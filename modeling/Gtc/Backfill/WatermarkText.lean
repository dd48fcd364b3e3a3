/-
The content of a watermark, from `emitWatermark` to `HandleWatermark` and
`WatermarkDelivered`: JSON that PostgreSQL carries through the WAL as it is.

`Coordinator` takes a watermark to be the payload its content unmarshals to.
Here it is the bytes, and what a coordinator emits reads as what it meant
(`watermarks_read_back`), whatever the names of the slot and of the table hold.
-/
import Gtc.Backfill.Coordinator
import Gtc.Lib.JsonText

namespace Gtc.Backfill

open Lib Lib.JsonText

variable {V : Type}

/-! ## `encoding/json` -/

/-- `encoding/json` puts U+FFFD for half a surrogate pair. -/
def goSingle (n : ℕ) : Option Char := some (if surrogate n then '\ufffd' else Char.ofNat n)

/-- The characters `json.Marshal` escapes with their code. -/
def goLong (c : Char) : Bool := c.toNat < 32 ∨ c = '<' ∨ c = '>' ∨ c = '&' ∨ c = '\u2028' ∨ c = '\u2029'

def goStyle : Style where
  long := goLong
  gap := false
  control c hc := by simp [goLong, hc]
  small c hc := by
    simp only [goLong, decide_eq_true_eq] at hc
    rcases hc with hc | rfl | rfl | rfl | rfl | rfl
    · omega
    all_goals decide

theorem goSingle_toNat (c : Char) : goSingle c.toNat = some c := by
  simp [goSingle, surrogate_toNat]

theorem readBy_goSingle (style : Style) (s : List Char) : style.ReadBy goSingle s := fun c _ _ => goSingle_toNat c

/-! ## Marshalled -/

/-- A `text` value. -/
def pgText (s : String) : Bool := '\x00' ∉ s.toList

inductive PayloadField where
  | slot
  | chunk
  | mark
deriving DecidableEq, Repr

def PayloadField.name : PayloadField → List Char
  | .slot => ['s', 'l', 'o', 't']
  | .chunk => ['c', 'h', 'u', 'n', 'k']
  | .mark => ['m', 'a', 'r', 'k']

def WatermarkPayload.value (p : WatermarkPayload) : Value :=
  .obj [(PayloadField.slot.name, .str p.slot.toList), (PayloadField.chunk.name, .str p.chunk.toList),
    (PayloadField.mark.name, .str p.mark.toList)]

def marshalPayload (p : WatermarkPayload) : List Char := goStyle.text p.value

/-- `emitWatermark`: the message that `pg_logical_emit_message` writes, if its
content is a `text`. -/
def emitWatermark (slotName chunkID mark : String) : Option (List Char) :=
  let payload := marshalPayload { slot := slotName, chunk := chunkID, mark }
  if pgText (String.ofList payload) then some payload else none

/-! ## Unmarshalled -/

def WatermarkPayload.set (p : WatermarkPayload) (s : String) : PayloadField → WatermarkPayload
  | .slot => { p with slot := s }
  | .chunk => { p with chunk := s }
  | .mark => { p with mark := s }

/-- One letter for all that differ in case only. Outside ASCII, the long s is one of
`s` and the Kelvin sign one of `k`; no other is one of a letter of the fields. -/
def foldRune (c : Char) : Char := if c = '\u017f' then 'S' else if c = '\u212a' then 'K' else c.toUpper

/-- The field a key names, in any case. -/
def payloadField (key : List Char) : Option PayloadField :=
  [.slot, .chunk, .mark].find? fun field => key.map foldRune = field.name.map foldRune

/-- A member of the object: a key that names no field is skipped, a `null` leaves the
field as it is, and anything but a string is an error. -/
def WatermarkPayload.setMember (p : WatermarkPayload) (member : List Char × Value) : Option WatermarkPayload :=
  match payloadField member.1, member.2 with
  | none, _ => some p
  | some field, .str s => some (p.set (String.ofList s) field)
  | some _, .null => some p
  | some _, _ => none

/-- `json.Unmarshal` into a `watermarkPayload`, which is empty at first. -/
def decodePayload : Value → Option WatermarkPayload
  | .null => some ⟨"", "", ""⟩
  | .obj members => members.foldlM WatermarkPayload.setMember ⟨"", "", ""⟩
  | _ => none

def unmarshalPayload (content : List Char) : Option WatermarkPayload := (read goSingle content).bind decodePayload

theorem decodePayload_value (p : WatermarkPayload) : decodePayload p.value = some p := by
  have hname : ∀ field : PayloadField, payloadField field.name = some field := by
    intro field
    cases field <;> decide
  simp [decodePayload, WatermarkPayload.value, WatermarkPayload.setMember, WatermarkPayload.set, hname]

/-! ## The coordinator -/

/-- `HandleWatermark`. -/
def Coordinator.handleContent (c : Coordinator V) (lsn : String) (now : ℕ) (content : List Char) :
    List (CDCEvent V) × Coordinator V := c.handleWatermark lsn now (unmarshalPayload content)

/-- `WatermarkDelivered`. -/
def Coordinator.contentDelivered (c : Coordinator V) (content : List Char) : Coordinator V :=
  c.watermarkDelivered (unmarshalPayload content)

/-- **A watermark reads as it was emitted**, whatever characters the names in it
hold: PostgreSQL takes its content, and a coordinator that reads it, the one that
emitted it or another, does what the payload says. -/
theorem watermarks_read_back (slotName chunkID mark : String) : ∃ content, emitWatermark slotName chunkID mark = some content ∧
    ∀ (c : Coordinator V) (lsn : String) (now : ℕ),
      c.handleContent lsn now content = c.handleWatermark lsn now (some ⟨slotName, chunkID, mark⟩) ∧
      c.contentDelivered content = c.watermarkDelivered (some ⟨slotName, chunkID, mark⟩) := by
  let p : WatermarkPayload := ⟨slotName, chunkID, mark⟩
  have hread : read goSingle (marshalPayload p) = some p.value := read_text fun s _ => readBy_goSingle goStyle s
  have hpayload : unmarshalPayload (marshalPayload p) = some p := by
    rw [unmarshalPayload, hread, Option.bind_some, decodePayload_value]
  have htext : pgText (String.ofList (marshalPayload p)) = true := by
    simpa [pgText] using notMem_of_read hread
  refine ⟨marshalPayload p, if_pos htext, fun c lsn now => ?_⟩
  rw [Coordinator.handleContent, Coordinator.contentDelivered, hpayload]
  exact ⟨rfl, rfl⟩

end Gtc.Backfill
