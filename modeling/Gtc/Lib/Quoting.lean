/-
Quoted text, and lists of words.

A text is quoted by doubling the quotes in it; reading it back undoes that
(`readQuoted_quoted`). Put between quotes as it is, a text is read back only if
it holds no quote (`readBody_unquoted_iff`).

A list of words has separators between its words and blanks around them. A
word is quoted, or it is plain text, which is folded (to lower case, say). So a
text that is taken for such a list is the one word it spells exactly if it is
plain and folding leaves it alone (`read_eq_self_iff`).
-/
import Mathlib.Data.List.Basic
import Mathlib.Data.List.TakeWhile

namespace Lib

/-! ## Quotes -/

/-- Every quote twice. -/
def double (q : Char) : List Char → List Char
  | [] => []
  | c :: s => if c = q then q :: q :: double q s else c :: double q s

def quoted (q : Char) (s : List Char) : List Char := q :: double q s ++ [q]

/-- Reads up to the closing quote; two quotes are one that is part of the text. -/
def readBody (q : Char) : List Char → Option (List Char × List Char)
  | [] => none
  | [c] => if c = q then some ([], []) else none
  | c :: d :: s =>
    if c = q then
      if d = q then (readBody q s).map fun r => (q :: r.1, r.2) else some ([], d :: s)
    else (readBody q (d :: s)).map fun r => (c :: r.1, r.2)

def readQuoted (q : Char) : List Char → Option (List Char × List Char)
  | [] => none
  | c :: s => if c = q then readBody q s else none

section Quotes

variable {q : Char}

theorem readBody_cons {c : Char} (hc : c ≠ q) (s : List Char) :
    readBody q (c :: s) = (readBody q s).map fun r => (c :: r.1, r.2) := by
  cases s with
  | nil => simp [readBody, hc]
  | cons d s => simp [readBody, hc]

theorem readBody_close {rest : List Char} (hrest : rest.head? ≠ some q) : readBody q (q :: rest) = some ([], rest) := by
  cases rest with
  | nil => simp [readBody]
  | cons d rest =>
    have hd : d ≠ q := by simpa using hrest
    simp [readBody, hd]

theorem readBody_double {rest : List Char} (hrest : rest.head? ≠ some q) (s : List Char) :
    readBody q (double q s ++ q :: rest) = some (s, rest) := by
  induction s with
  | nil => exact readBody_close hrest
  | cons c s ih =>
    by_cases hc : c = q
    · subst hc
      simp [double, readBody, ih]
    · simp only [double, hc, if_false, List.cons_append]
      rw [readBody_cons hc, ih]
      rfl

/-- **Quoted text is read back**, and the reader stops after it. -/
theorem readQuoted_quoted {rest : List Char} (hrest : rest.head? ≠ some q) (s : List Char) :
    readQuoted q (quoted q s ++ rest) = some (s, rest) := by
  simp [quoted, readQuoted, readBody_double hrest]

/-- What is read is no longer than what it was read from, and as long only if no
quote was undone. -/
theorem readBody_length {s text rest : List Char} (h : readBody q s = some (text, rest)) :
    text.length + rest.length + 1 ≤ s.length ∧
      (text.length + rest.length + 1 = s.length → s = text ++ q :: rest ∧ q ∉ text) := by
  fun_induction readBody q s generalizing text rest with
  | case1 => cases h
  | case2 =>
    cases h
    simp
  | case3 => cases h
  | case4 s ih =>
    obtain ⟨r, hr, heq⟩ := Option.map_eq_some_iff.mp h
    cases heq
    have hle := (ih hr).1
    simp only [List.length_cons]
    exact ⟨by omega, by omega⟩
  | case5 d s hd =>
    cases h
    simp
  | case6 c d s hc ih =>
    obtain ⟨r, hr, heq⟩ := Option.map_eq_some_iff.mp h
    cases heq
    obtain ⟨hle, hsame⟩ := ih hr
    simp only [List.length_cons] at hle hsame ⊢
    refine ⟨by omega, fun heq => ?_⟩
    obtain ⟨htext, hnot⟩ := hsame (by omega)
    exact ⟨by rw [htext]; rfl, by simp [hnot, Ne.symm hc]⟩

/-- A text put between quotes as it is, is read back exactly if it holds none. -/
theorem readBody_unquoted_iff (s : List Char) : readBody q (s ++ [q]) = some (s, []) ↔ q ∉ s := by
  constructor
  · intro h
    exact ((readBody_length h).2 (by simp)).2
  · intro h
    induction s with
    | nil => exact readBody_close (by simp)
    | cons c s ih =>
      rw [List.mem_cons, not_or] at h
      rw [List.cons_append, readBody_cons (Ne.symm h.1), ih h.2]
      rfl

end Quotes

/-! ## Lists of words -/

structure WordList where
  separator : Char
  quote : Char
  blank : Char → Bool
  /-- What happens to the characters of plain words. -/
  fold : Char → Char

namespace WordList

variable (l : WordList)

def plain (c : Char) : Bool := c ≠ l.separator ∧ ¬ l.blank c

/-- Reads one word. -/
def readWord : List Char → Option (List Char × List Char)
  | [] => none
  | c :: s =>
    if c = l.quote then readBody l.quote s
    else if (c :: s).takeWhile l.plain = [] then none
    else some (((c :: s).takeWhile l.plain).map l.fold, (c :: s).dropWhile l.plain)

/-- Reads words up to the end of the text. A word takes at least one character, so
the length of the text is fuel enough. -/
def readWords : ℕ → List Char → Option (List (List Char))
  | 0, _ => none
  | fuel + 1, s =>
    match l.readWord s with
    | none => none
    | some (word, rest) =>
      match rest.dropWhile l.blank with
      | [] => some [word]
      | c :: rest => if c = l.separator then (readWords fuel (rest.dropWhile l.blank)).map (word :: ·) else none

/-- A text of blanks is the empty list. -/
def read (s : List Char) : Option (List (List Char)) :=
  match s.dropWhile l.blank with
  | [] => some []
  | c :: s => l.readWords (s.length + 1) (c :: s)

variable {l}

theorem readWord_length {s word rest : List Char} (h : l.readWord s = some (word, rest)) : word.length + rest.length ≤ s.length := by
  cases s with
  | nil => cases h
  | cons c s =>
    simp only [readWord] at h
    split at h
    · have hle := (readBody_length h).1
      simp only [List.length_cons]
      omega
    · split at h
      · cases h
      · cases h
        have happend := congrArg List.length (List.takeWhile_append_dropWhile (p := l.plain) (l := c :: s))
        rw [List.length_append] at happend
        rw [List.length_map]
        omega

theorem readWord_of_read {s word : List Char} (h : l.read s = some [word]) :
    ∃ rest, l.readWord (s.dropWhile l.blank) = some (word, rest) := by
  unfold read at h
  split at h
  · cases h
  · rename_i c s' hs
    rw [hs]
    simp only [readWords] at h
    split at h
    · cases h
    · rename_i first rest hfirst
      refine ⟨rest, ?_⟩
      rw [hfirst]
      split at h
      · cases h
        rfl
      · split at h
        · obtain ⟨words, -, heq⟩ := Option.map_eq_some_iff.mp h
          cases heq
          rfl
        · cases h

/-- A text that is one word is no shorter than the word. -/
theorem read_length {s word : List Char} (h : l.read s = some [word]) : word.length ≤ s.length := by
  obtain ⟨rest, hword⟩ := readWord_of_read h
  have hle := readWord_length hword
  have hdrop := (List.dropWhile_suffix (l := s) l.blank).length_le
  omega

/-- **A text is the one word it spells** exactly if it is a plain word that folding
leaves alone. -/
theorem read_eq_self_iff {s : List Char} : l.read s = some [s] ↔
    s ≠ [] ∧ s.head? ≠ some l.quote ∧ ∀ c ∈ s, c ≠ l.separator ∧ l.blank c = false ∧ l.fold c = c := by
  constructor
  · intro h
    obtain ⟨rest, hword⟩ := readWord_of_read h
    have hle := readWord_length hword
    have hsuffix := List.dropWhile_suffix (l := s) l.blank
    have hdrop : s.dropWhile l.blank = s := hsuffix.eq_of_length_le (by omega)
    obtain rfl : rest = [] := List.length_eq_zero_iff.mp (by have := hsuffix.length_le; omega)
    rw [hdrop] at hword
    cases s with
    | nil => cases hword
    | cons c s =>
      simp only [readWord] at hword
      split at hword
      · have hlength := (readBody_length hword).1
        simp only [List.length_cons] at hlength
        omega
      · rename_i hquote
        split at hword
        · cases hword
        · obtain ⟨hfold, hplain⟩ := Prod.mk.inj (Option.some.inj hword)
          have hall := List.dropWhile_eq_nil_iff.mp hplain
          rw [List.takeWhile_eq_self_iff.mpr hall] at hfold
          refine ⟨by simp, by simpa using hquote, fun d hd => ?_⟩
          obtain ⟨hsep, hblank⟩ : d ≠ l.separator ∧ l.blank d = false := by simpa [plain] using hall d hd
          exact ⟨hsep, hblank, List.map_inj_left.mp (hfold.trans (List.map_id _).symm) d hd⟩
  · rintro ⟨hne, hquote, hall⟩
    have hplain : ∀ c ∈ s, l.plain c = true := fun c hc => by simp [plain, (hall c hc).1, (hall c hc).2.1]
    have hfold : s.map l.fold = s := (List.map_congr_left fun c hc => (hall c hc).2.2).trans (List.map_id _)
    cases s with
    | nil => exact absurd rfl hne
    | cons c s =>
      have hstart : (c :: s).dropWhile l.blank = c :: s := by simp [(hall c (by simp)).2.1]
      have hc : c ≠ l.quote := by simpa using hquote
      have hword : l.readWord (c :: s) = some (c :: s, []) := by
        simp only [readWord, hc, if_false, List.takeWhile_eq_self_iff.mpr hplain, List.dropWhile_eq_nil_iff.mpr hplain, hfold]
        simp
      unfold read
      rw [hstart]
      simp [readWords, hword]

end WordList

end Lib
