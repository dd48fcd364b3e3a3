/-
Numbers written out: hexadecimal and decimal numerals, and that a text built
from fields and a separator no field contains can be taken apart again.
-/
import Mathlib.Data.List.Basic

namespace Lib

/-! ## Fields and separators -/

/-- Two texts with a separator that neither first field contains agree field by
field. -/
theorem append_cons_inj_of_notMem {α : Type} {sep : α} : ∀ {xs xs' ys ys' : List α}, sep ∉ xs → sep ∉ xs' →
    xs ++ sep :: ys = xs' ++ sep :: ys' → xs = xs' ∧ ys = ys'
  | [], [], _, _, _, _, h => ⟨rfl, (List.cons.inj h).2⟩
  | [], x :: _, _, _, _, hx', h => absurd (List.cons.inj h).1 fun he => hx' (by simp [he])
  | x :: _, [], _, _, hx, _, h => absurd (List.cons.inj h).1 fun he => hx (by simp [he])
  | x :: xs, x' :: xs', ys, ys', hx, hx', h => by
    obtain ⟨rfl, htail⟩ := List.cons.inj h
    have hxs : sep ∉ xs := fun hm => hx (List.mem_cons_of_mem _ hm)
    have hxs' : sep ∉ xs' := fun hm => hx' (List.mem_cons_of_mem _ hm)
    obtain ⟨rfl, rfl⟩ := append_cons_inj_of_notMem hxs hxs' htail
    exact ⟨rfl, rfl⟩

/-- The texts between the separators of all fields, in order. -/
def segments {α : Type} [BEq α] (sep : α) (fields : List (List α)) : List (List α) :=
  fields.flatMap (·.splitOn sep)

/-- A joined text, cut at every separator, is its fields cut at every separator. -/
theorem splitOn_intercalate_eq_segments {α : Type} [BEq α] [LawfulBEq α] {sep : α} :
    ∀ {fields : List (List α)}, fields ≠ [] → ([sep].intercalate fields).splitOn sep = segments sep fields
  | [], h => absurd rfl h
  | [x], _ => by simp [segments, List.intercalate]
  | x :: y :: fields, _ => by
    have ih : ([sep].intercalate (y :: fields)).splitOn sep = segments sep (y :: fields) :=
      splitOn_intercalate_eq_segments (List.cons_ne_nil y fields)
    have hjoin : [sep].intercalate (x :: y :: fields) = x ++ sep :: [sep].intercalate (y :: fields) := by
      simp [List.intercalate]
    rw [hjoin, List.splitOn_append_cons_self, ih]
    rfl

/-- As many fields join to one text exactly if their segments are the same. -/
theorem intercalate_eq_iff_segments {α : Type} [BEq α] [LawfulBEq α] {sep : α} {fields fields' : List (List α)}
    (hlength : fields.length = fields'.length) :
    [sep].intercalate fields = [sep].intercalate fields' ↔ segments sep fields = segments sep fields' := by
  by_cases hnil : fields = []
  · obtain rfl : fields' = [] := List.eq_nil_of_length_eq_zero (by rw [← hlength, hnil, List.length_nil])
    rw [hnil]
    exact iff_of_true rfl rfl
  have hnil' : fields' ≠ [] := by
    rintro rfl
    exact hnil (List.eq_nil_of_length_eq_zero hlength)
  rw [← splitOn_intercalate_eq_segments hnil, ← splitOn_intercalate_eq_segments hnil']
  constructor
  · exact congrArg _
  · intro h
    simpa only [List.intercalate_splitOn] using congrArg [sep].intercalate h

/-! ## Hexadecimal -/

/-- The digits of `%X`. -/
def hexDigits (n : ℕ) : List Char := (Nat.toDigits 16 n).map Char.toUpper

/-- `%X` of an unsigned integer. -/
def hexUpper (n : ℕ) : String := String.ofList (hexDigits n)

/-- One hexadecimal digit. -/
def hexDigit (d : ℕ) : Char := (Nat.digitChar d).toUpper

theorem hexDigits_eq (n : ℕ) :
    hexDigits n = if n < 16 then [hexDigit n] else hexDigits (n / 16) ++ [hexDigit (n % 16)] := by
  rw [hexDigits, Nat.toDigits_eq_if (by decide)]
  split <;> simp [hexDigits, hexDigit]

theorem hexDigits_ne_nil (n : ℕ) : hexDigits n ≠ [] := by simp [hexDigits]

theorem hexDigit_inj {a b : ℕ} (ha : a < 16) (hb : b < 16) (h : hexDigit a = hexDigit b) : a = b := by
  have inj : ∀ a b : Fin 16, hexDigit a = hexDigit b → a = b := by decide
  exact congrArg Fin.val (inj ⟨a, ha⟩ ⟨b, hb⟩ h)

theorem hexDigits_inj {m n : ℕ} (h : hexDigits m = hexDigits n) : m = n := by
  induction m using Nat.strongRecOn generalizing n with
  | _ m ih =>
    rw [hexDigits_eq m, hexDigits_eq n] at h
    split at h
    · split at h
      · exact hexDigit_inj ‹_› ‹_› (by simpa using h)
      · exact absurd (List.append_eq_singleton_iff.mp h.symm) (by simp [hexDigits_ne_nil])
    · split at h
      · exact absurd (List.append_eq_singleton_iff.mp h) (by simp [hexDigits_ne_nil])
      · obtain ⟨hhigh, hlow⟩ := List.append_inj' h rfl
        have hdiv := ih (m / 16) (by omega) hhigh
        have hmod := hexDigit_inj (Nat.mod_lt m (by decide)) (Nat.mod_lt n (by decide)) (by simpa using hlow)
        omega

/-- The value of a hexadecimal digit. -/
def hexValue (c : Char) : Option ℕ :=
  if '0' ≤ c ∧ c ≤ '9' then some (c.toNat - 48)
  else if 'A' ≤ c ∧ c ≤ 'F' then some (c.toNat - 55)
  else if 'a' ≤ c ∧ c ≤ 'f' then some (c.toNat - 87)
  else none

/-- A hexadecimal numeral, digit by digit. -/
def readDigits (value : ℕ) : List Char → Option ℕ
  | [] => some value
  | c :: cs => (hexValue c).bind fun d => readDigits (value * 16 + d) cs

/-- `%X` read back: at least one digit. -/
def readHex (cs : List Char) : Option ℕ := if cs = [] then none else readDigits 0 cs

theorem hexValue_hexDigit (d : Fin 16) : hexValue (hexDigit d) = some d.val := by
  revert d
  decide

theorem readDigits_append (value : ℕ) (cs ds : List Char) :
    readDigits value (cs ++ ds) = (readDigits value cs).bind fun v => readDigits v ds := by
  induction cs generalizing value with
  | nil => rfl
  | cons c cs ih =>
    simp only [List.cons_append, readDigits]
    cases hexValue c with
    | none => rfl
    | some d => exact ih _

theorem readDigits_hexDigits (n : ℕ) : readDigits 0 (hexDigits n) = some n := by
  induction n using Nat.strongRecOn with
  | _ n ih =>
    rw [hexDigits_eq]
    split
    · next h => simp [readDigits, hexValue_hexDigit ⟨n, h⟩]
    · have hlow := hexValue_hexDigit ⟨n % 16, Nat.mod_lt n (by decide)⟩
      rw [readDigits_append, ih (n / 16) (by omega), Option.bind_some]
      simp only [readDigits, hlow, Option.bind_some]
      exact congrArg some (Nat.div_add_mod' n 16)

theorem readHex_hexDigits (n : ℕ) : readHex (hexDigits n) = some n := by
  rw [readHex, if_neg (hexDigits_ne_nil n), readDigits_hexDigits]

/-- A numeral holds digits only. -/
theorem notMem_hexDigits {c : Char} (hc : ∀ d : Fin 16, hexDigit d ≠ c) (n : ℕ) : c ∉ hexDigits n := by
  induction n using Nat.strongRecOn with
  | _ n ih =>
    rw [hexDigits_eq]
    split
    · next h => simpa using (hc ⟨n, h⟩).symm
    · intro hm
      rcases List.mem_append.mp hm with hm | hm
      · exact ih (n / 16) (by omega) hm
      · exact hc ⟨n % 16, Nat.mod_lt n (by decide)⟩ (List.mem_singleton.mp hm).symm

end Lib
