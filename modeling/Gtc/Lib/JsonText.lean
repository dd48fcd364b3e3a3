/-
JSON texts, written and read.

A text is cut into tokens one character at a time (`Scan.step`), and the tokens
are put together one at a time, on a stack of the arrays and objects that are
still open (`Reading.step`). So a reader is two folds and needs no fuel.

Writers differ in the characters they escape and in the blanks they leave
(`Style`), and readers in what they make of a lone `\u` escape (`single`): one
may put a replacement character for half a surrogate pair, another refuse it.
A reader that has each escaped character back gets the value that was written,
in whatever style (`read_text`).
-/
import Gtc.Lib.Numerals

namespace Lib.JsonText

/-! ## Values -/

/-- How far a numeral has been read. -/
inductive NumeralPart where
  | start
  | minus
  | zero
  | whole
  | point
  | fraction
  | mark
  | sign
  | power

def NumeralPart.next : NumeralPart → Char → Option NumeralPart
  | .start, c => if c = '-' then some .minus else if c = '0' then some .zero else if c.isDigit then some .whole else none
  | .minus, c => if c = '0' then some .zero else if c.isDigit then some .whole else none
  | .zero, c => if c = '.' then some .point else if c = 'e' ∨ c = 'E' then some .mark else none
  | .whole, c =>
    if c.isDigit then some .whole else if c = '.' then some .point else if c = 'e' ∨ c = 'E' then some .mark else none
  | .point, c => if c.isDigit then some .fraction else none
  | .fraction, c => if c.isDigit then some .fraction else if c = 'e' ∨ c = 'E' then some .mark else none
  | .mark, c => if c = '+' ∨ c = '-' then some .sign else if c.isDigit then some .power else none
  | .sign, c => if c.isDigit then some .power else none
  | .power, c => if c.isDigit then some .power else none

def NumeralPart.complete : NumeralPart → Bool
  | .zero | .whole | .fraction | .power => true
  | _ => false

def isNumeral (word : List Char) : Bool := ((word.foldlM NumeralPart.next .start).map NumeralPart.complete).getD false

/-- A number as it is written. -/
structure Numeral where
  text : List Char
  numeral : isNumeral text = true

/-- A JSON value. The members of an object are those written, in that order. -/
inductive Value where
  | null
  | bool (b : Bool)
  | num (n : Numeral)
  | str (s : List Char)
  | arr (items : List Value)
  | obj (members : List (List Char × Value))

inductive Token where
  | punct (c : Char)
  /-- `null`, `true`, `false`, a number, or nothing JSON has. -/
  | word (w : List Char)
  | str (s : List Char)

mutual

def Value.tokens : Value → List Token
  | .null => [.word ['n', 'u', 'l', 'l']]
  | .bool true => [.word ['t', 'r', 'u', 'e']]
  | .bool false => [.word ['f', 'a', 'l', 's', 'e']]
  | .num n => [.word n.text]
  | .str s => [.str s]
  | .arr [] => [.punct '[', .punct ']']
  | .arr (v :: vs) => .punct '[' :: (v.tokens ++ moreItems vs)
  | .obj [] => [.punct '\x7b', .punct '\x7d']
  | .obj ((k, v) :: ms) => .punct '\x7b' :: .str k :: .punct ':' :: (v.tokens ++ moreMembers ms)

/-- An array from the end of its first item on. -/
def moreItems : List Value → List Token
  | [] => [.punct ']']
  | v :: vs => .punct ',' :: (v.tokens ++ moreItems vs)

/-- An object from the end of its first member on. -/
def moreMembers : List (List Char × Value) → List Token
  | [] => [.punct '\x7d']
  | (k, v) :: ms => .punct ',' :: .str k :: .punct ':' :: (v.tokens ++ moreMembers ms)

end

mutual

/-- The strings of a value, the keys of its objects among them. -/
def Value.strings : Value → List (List Char)
  | .null | .bool _ | .num _ => []
  | .str s => [s]
  | .arr vs => stringsOfItems vs
  | .obj ms => stringsOfMembers ms

def stringsOfItems : List Value → List (List Char)
  | [] => []
  | v :: vs => v.strings ++ stringsOfItems vs

def stringsOfMembers : List (List Char × Value) → List (List Char)
  | [] => []
  | (k, v) :: ms => k :: (v.strings ++ stringsOfMembers ms)

end

/-! ## Writing -/

/-- The escapes of one letter. -/
def short (c : Char) : Option Char :=
  if c = '"' then some '"'
  else if c = '\\' then some '\\'
  else if c = '\x08' then some 'b'
  else if c = '\x0c' then some 'f'
  else if c = '\n' then some 'n'
  else if c = '\r' then some 'r'
  else if c = '\t' then some 't'
  else none

/-- How a text is written. -/
structure Style where
  /-- The characters written as `\u` and four digits, if no shorter escape does. -/
  long : Char → Bool
  /-- A blank follows every comma and colon. -/
  gap : Bool
  control : ∀ c : Char, c.toNat < 32 → long c = true
  small : ∀ c : Char, long c = true → c.toNat < 65536

/-- Four digits. -/
def hexFour (n : ℕ) : List Char :=
  [Nat.digitChar (n / 4096), Nat.digitChar (n / 256 % 16), Nat.digitChar (n / 16 % 16), Nat.digitChar (n % 16)]

def Style.escape (style : Style) (c : Char) : List Char :=
  match short c with
  | some e => ['\\', e]
  | none => if style.long c then '\\' :: 'u' :: hexFour c.toNat else [c]

def Style.spell (style : Style) : Token → List Char
  | .punct c => if style.gap ∧ (c = ',' ∨ c = ':') then [c, ' '] else [c]
  | .word w => w
  | .str s => '"' :: (s.flatMap style.escape ++ ['"'])

def Style.text (style : Style) (v : Value) : List Char := v.tokens.flatMap style.spell

/-! ## Strings, read -/

/-- A character of a string as it is read: itself, or the code of a `\u` escape. -/
inductive Piece where
  | plain (c : Char)
  | code (n : ℕ)

def highSurrogate (n : ℕ) : Bool := 0xd800 ≤ n ∧ n < 0xdc00

def lowSurrogate (n : ℕ) : Bool := 0xdc00 ≤ n ∧ n < 0xe000

def surrogate (n : ℕ) : Bool := highSurrogate n || lowSurrogate n

theorem surrogate_toNat (c : Char) : surrogate c.toNat = false := by
  have hvalid := c.valid
  simp only [surrogate, highSurrogate, lowSurrogate, Bool.or_eq_false_iff, decide_eq_false_iff_not]
  rcases hvalid with h | ⟨h, -⟩
  · have hlt : c.toNat < 0xd800 := h
    omega
  · have hlt : 0xdfff < c.toNat := h
    omega

/-- The characters of a string: a high surrogate and the low one after it are one
character, and any other code is what `single` says. -/
def assemble (single : ℕ → Option Char) : List Piece → Option (List Char)
  | [] => some []
  | .plain c :: ps => (assemble single ps).map (c :: ·)
  | .code n :: .code m :: ps =>
    if highSurrogate n ∧ lowSurrogate m then
      (assemble single ps).map (Char.ofNat (0x10000 + (n - 0xd800) * 0x400 + (m - 0xdc00)) :: ·)
    else (single n).bind fun d => (assemble single (.code m :: ps)).map (d :: ·)
  | .code n :: ps => (single n).bind fun d => (assemble single ps).map (d :: ·)

/-- What an escape of one letter stands for. -/
def unescape (c : Char) : Option Char :=
  if c = '"' ∨ c = '\\' ∨ c = '/' then some c
  else if c = 'b' then some '\x08'
  else if c = 'f' then some '\x0c'
  else if c = 'n' then some '\n'
  else if c = 'r' then some '\r'
  else if c = 't' then some '\t'
  else none

/-! ## Tokens, read -/

/-- Where a reader is in a text. What it is in the middle of is held last character first. -/
inductive Scan where
  | between
  | word (w : List Char)
  | inside (ps : List Piece)
  /-- After a backslash. -/
  | escape (ps : List Piece)
  /-- In a `\u` escape, with `more` digits to come after the next. -/
  | code (ps : List Piece) (more value : ℕ)

def blank (c : Char) : Bool := c = ' ' ∨ c = '\t' ∨ c = '\n' ∨ c = '\r'

def punctuation (c : Char) : Bool := c = '[' ∨ c = ']' ∨ c = '\x7b' ∨ c = '\x7d' ∨ c = ',' ∨ c = ':'

def wordChar (c : Char) : Bool := c.isAlphanum ∨ c = '-' ∨ c = '+' ∨ c = '.'

/-- What a character between two tokens does. -/
def Scan.start (c : Char) : Option (List Token × Scan) :=
  if blank c then some ([], .between)
  else if punctuation c then some ([.punct c], .between)
  else if c = '"' then some ([], .inside [])
  else if wordChar c then some ([], .word [c])
  else none

/-- The tokens a character completes, and where it leaves the reader. -/
def Scan.step (single : ℕ → Option Char) : Scan → Char → Option (List Token × Scan)
  | .between, c => start c
  | .word w, c =>
    if wordChar c then some ([], .word (c :: w))
    else (start c).map fun r => (.word w.reverse :: r.1, r.2)
  | .inside ps, c =>
    if c = '"' then (assemble single ps.reverse).map fun s => ([.str s], .between)
    else if c = '\\' then some ([], .escape ps)
    else if c.toNat < 32 then none
    else some ([], .inside (.plain c :: ps))
  | .escape ps, c => if c = 'u' then some ([], .code ps 3 0) else (unescape c).map fun d => ([], .inside (.plain d :: ps))
  | .code ps 0 value, c => (hexValue c).map fun d => ([], .inside (.code (value * 16 + d) :: ps))
  | .code ps (more + 1) value, c => (hexValue c).map fun d => ([], .code ps more (value * 16 + d))

def Scan.run (single : ℕ → Option Char) : Scan → List Char → Option (List Token × Scan)
  | s, [] => some ([], s)
  | s, c :: cs => (s.step single c).bind fun r => (r.2.run single cs).map fun r' => (r.1 ++ r'.1, r'.2)

/-- The token that ends with the text; the text ends in none of the others. -/
def Scan.last : Scan → Option (List Token)
  | .between => some []
  | .word w => some [.word w.reverse]
  | _ => none

def lex (single : ℕ → Option Char) (text : List Char) : Option (List Token) :=
  (Scan.between.run single text).bind fun r => r.2.last.map (r.1 ++ ·)

/-! ## Values, read -/

/-- An array or object that is still open, its items last first. -/
inductive Open where
  | arr (items : List Value)
  | obj (members : List (List Char × Value)) (key : List Char)

/-- What a reader of tokens expects. -/
inductive Reading where
  | value (stack : List Open)
  /-- After an opening bracket. -/
  | item (stack : List Open)
  /-- After an opening brace. -/
  | member (stack : List Open)
  | key (members : List (List Char × Value)) (stack : List Open)
  | colon (members : List (List Char × Value)) (key : List Char) (stack : List Open)
  /-- After a value. -/
  | after (v : Value) (stack : List Open)

def literal (w : List Char) : Option Value :=
  if w = ['n', 'u', 'l', 'l'] then some .null
  else if w = ['t', 'r', 'u', 'e'] then some (.bool true)
  else if w = ['f', 'a', 'l', 's', 'e'] then some (.bool false)
  else if h : isNumeral w then some (.num ⟨w, h⟩)
  else none

/-- The beginning of a value. -/
def Reading.start (stack : List Open) : Token → Option Reading
  | .word w => (literal w).map (.after · stack)
  | .str s => some (.after (.str s) stack)
  | .punct c => if c = '[' then some (.item stack) else if c = '\x7b' then some (.member stack) else none

def Reading.step : Reading → Token → Option Reading
  | .value stack, t => start stack t
  | .item stack, .punct c => if c = ']' then some (.after (.arr []) stack) else start (.arr [] :: stack) (.punct c)
  | .item stack, t => start (.arr [] :: stack) t
  | .member stack, .punct c => if c = '\x7d' then some (.after (.obj []) stack) else none
  | .member stack, .str k => some (.colon [] k stack)
  | .key ms stack, .str k => some (.colon ms k stack)
  | .colon ms k stack, .punct c => if c = ':' then some (.value (.obj ms k :: stack)) else none
  | .after v (.arr vs :: stack), .punct c =>
    if c = ',' then some (.value (.arr (v :: vs) :: stack))
    else if c = ']' then some (.after (.arr (v :: vs).reverse) stack)
    else none
  | .after v (.obj ms k :: stack), .punct c =>
    if c = ',' then some (.key ((k, v) :: ms) stack)
    else if c = '\x7d' then some (.after (.obj ((k, v) :: ms).reverse) stack)
    else none
  | _, _ => none

/-- One value, and nothing after it. -/
def Reading.result : Reading → Option Value
  | .after v [] => some v
  | _ => none

def parse (ts : List Token) : Option Value := (ts.foldlM Reading.step (.value [])).bind Reading.result

def read (single : ℕ → Option Char) (text : List Char) : Option Value := (lex single text).bind parse

/-! ## What is written is read back -/

section Strings

variable (single : ℕ → Option Char) (style : Style)

/-- What a character is read as, as `style` writes it. -/
def Style.piece (c : Char) : Piece := if (short c).isNone ∧ style.long c then .code c.toNat else .plain c

/-- A reader has the characters back that `style` escapes with their code. -/
def Style.ReadBy (s : List Char) : Prop := ∀ c ∈ s, style.long c = true → single c.toNat = some c

variable {single style}

theorem assemble_code {n : ℕ} (hn : highSurrogate n = false) (ps : List Piece) :
    assemble single (.code n :: ps) = (single n).bind fun d => (assemble single ps).map (d :: ·) := by
  cases ps with
  | nil => rfl
  | cons p ps =>
    cases p with
    | plain c => rfl
    | code m => simp [assemble, hn]

theorem assemble_pieces {s : List Char} (hs : style.ReadBy single s) : assemble single (s.map style.piece) = some s := by
  induction s with
  | nil => rfl
  | cons c s ih =>
    have ih := ih fun d hd => hs d (List.mem_cons_of_mem c hd)
    rw [List.map_cons, Style.piece]
    split
    · next hlong =>
      rw [assemble_code (Bool.or_eq_false_iff.mp (surrogate_toNat c)).1, hs c List.mem_cons_self hlong.2, ih]
      rfl
    · rw [assemble, ih]
      rfl

theorem unescape_short {c e : Char} (h : short c = some e) : e ≠ 'u' ∧ unescape e = some c := by
  unfold short at h
  split_ifs at h <;> simp_all <;> subst h <;> decide

theorem short_eq_none {c : Char} (h : short c = none) : c ≠ '"' ∧ c ≠ '\\' := by
  constructor
  · rintro rfl
    cases h
  · rintro rfl
    cases h

theorem hexValue_digitChar {d : ℕ} (hd : d < 16) : hexValue (Nat.digitChar d) = some d := by
  have hall : ∀ d : Fin 16, hexValue (Nat.digitChar d) = some d.val := by decide
  exact hall ⟨d, hd⟩

theorem run_append (s : Scan) (cs ds : List Char) : s.run single (cs ++ ds) =
    (s.run single cs).bind fun r => (r.2.run single ds).map fun r' => (r.1 ++ r'.1, r'.2) := by
  induction cs generalizing s with
  | nil => simp [Scan.run]
  | cons c cs ih =>
    simp only [List.cons_append, Scan.run]
    cases s.step single c with
    | none => rfl
    | some r =>
      simp only [Option.bind_some, ih]
      cases r.2.run single cs with
      | none => rfl
      | some r' => simp [Function.comp_def]

theorem run_hexFour (ps : List Piece) {n : ℕ} (hn : n < 65536) :
    (Scan.code ps 3 0).run single (hexFour n) = some ([], .inside (.code n :: ps)) := by
  have h₀ := hexValue_digitChar (d := n / 4096) (by omega)
  have h₁ := hexValue_digitChar (d := n / 256 % 16) (by omega)
  have h₂ := hexValue_digitChar (d := n / 16 % 16) (by omega)
  have h₃ := hexValue_digitChar (d := n % 16) (by omega)
  have hvalue : (((0 * 16 + n / 4096) * 16 + n / 256 % 16) * 16 + n / 16 % 16) * 16 + n % 16 = n := by omega
  simp only [hexFour, Scan.run, Scan.step, h₀, h₁, h₂, h₃, Option.map_some, Option.bind_some, hvalue, List.nil_append]

theorem run_escape (ps : List Piece) (c : Char) :
    (Scan.inside ps).run single (style.escape c) = some ([], .inside (style.piece c :: ps)) := by
  unfold Style.escape Style.piece
  cases hshort : short c with
  | some e =>
    obtain ⟨hu, hback⟩ := unescape_short hshort
    simp [Scan.run, Scan.step, hu, hback]
  | none =>
    obtain ⟨hquote, hback⟩ := short_eq_none hshort
    cases hlong : style.long c with
    | true =>
      have hcode := @run_hexFour single ps _ (style.small c hlong)
      simp [Scan.run, Scan.step, hcode]
    | false =>
      have hcontrol : ¬ c.toNat < 32 := fun h => by simp [style.control c h] at hlong
      simp [Scan.run, Scan.step, hquote, hback, hcontrol]

theorem run_escaped (ps : List Piece) (s : List Char) :
    (Scan.inside ps).run single (s.flatMap style.escape) = some ([], .inside ((s.map style.piece).reverse ++ ps)) := by
  induction s generalizing ps with
  | nil => rfl
  | cons c s ih =>
    rw [List.flatMap_cons, run_append, run_escape, Option.bind_some, ih]
    simp

theorem run_str {s : List Char} (hs : style.ReadBy single s) :
    Scan.between.run single (style.spell (.str s)) = some ([.str s], .between) := by
  have hbody : (Scan.inside []).run single (s.flatMap style.escape ++ ['"']) = some ([.str s], .between) := by
    rw [run_append, run_escaped, Option.bind_some]
    simp [Scan.run, Scan.step, assemble_pieces hs]
  have hquote : Scan.start '"' = some ([], .inside []) := rfl
  simp [Style.spell, Scan.run, Scan.step, hquote, hbody]

end Strings

/-! A word ends with the token after it, which is punctuation, or with the text. So a
reader is between tokens when it reads a token, or at the end of a word when it
reads punctuation. -/

section Tokens

variable (single : ℕ → Option Char) (style : Style)

/-- Tokens that are read back as they are written, up to a last word that is still open. -/
def Lexes (ts : List Token) : Prop :=
  ∃ out s rest, Scan.between.run single (ts.flatMap style.spell) = some (out, s) ∧ s.last = some rest ∧ out ++ rest = ts

variable {single style}

theorem lex_of_lexes {ts : List Token} (h : Lexes single style ts) : lex single (ts.flatMap style.spell) = some ts := by
  obtain ⟨out, s, rest, hrun, hlast, heq⟩ := h
  simp [lex, hrun, hlast, heq]

theorem lexes_nil : Lexes single style [] := ⟨[], .between, [], rfl, rfl, rfl⟩

theorem lexes_str {s : List Char} (hs : style.ReadBy single s) : Lexes single style [.str s] :=
  ⟨[.str s], .between, [], by rw [List.flatMap_singleton, run_str hs], rfl, rfl⟩

theorem blank_eq_false {c : Char} (hc : wordChar c = true ∨ punctuation c = true) : blank c = false := by
  by_contra h
  simp only [Bool.not_eq_false, blank, decide_eq_true_eq] at h
  rcases h with rfl | rfl | rfl | rfl <;> rcases hc with hc | hc <;> cases hc

theorem wordChar_eq_false {c : Char} (hc : punctuation c = true) : wordChar c = false := by
  simp only [punctuation, decide_eq_true_eq] at hc
  rcases hc with rfl | rfl | rfl | rfl | rfl | rfl <;> rfl

theorem start_wordChar {c : Char} (hc : wordChar c = true) : Scan.start c = some ([], .word [c]) := by
  have hpunct : punctuation c = false := by
    by_contra h
    rw [wordChar_eq_false (Bool.not_eq_false _ ▸ h)] at hc
    cases hc
  have hquote : c ≠ '"' := by
    rintro rfl
    cases hc
  simp [Scan.start, blank_eq_false (.inl hc), hpunct, hquote, hc]

theorem run_wordChars {w : List Char} (hw : ∀ c ∈ w, wordChar c = true) (acc : List Char) :
    (Scan.word acc).run single w = some ([], .word (w.reverse ++ acc)) := by
  induction w generalizing acc with
  | nil => rfl
  | cons c w ih =>
    have hc := hw c List.mem_cons_self
    have ih := ih (fun d hd => hw d (List.mem_cons_of_mem c hd)) (c :: acc)
    simp [Scan.run, Scan.step, hc, ih]

theorem lexes_word {w : List Char} (hne : w ≠ []) (hw : ∀ c ∈ w, wordChar c = true) : Lexes single style [.word w] := by
  obtain ⟨c, w, rfl⟩ := List.exists_cons_of_ne_nil hne
  have hstart := start_wordChar (hw c List.mem_cons_self)
  have hrest := @run_wordChars single w (fun d hd => hw d (List.mem_cons_of_mem c hd)) [c]
  refine ⟨[], .word (w.reverse ++ [c]), [.word (c :: w)], ?_, by simp [Scan.last], rfl⟩
  simp [Style.spell, Scan.run, Scan.step, hstart, hrest]

theorem step_punct {s : Scan} {rest : List Token} (hlast : s.last = some rest) {c : Char} (hc : punctuation c = true) :
    s.step single c = some (rest ++ [.punct c], .between) := by
  have hstart : Scan.start c = some ([.punct c], .between) := by simp [Scan.start, blank_eq_false (.inr hc), hc]
  cases s with
  | between =>
    cases hlast
    exact hstart
  | word w =>
    cases hlast
    simp [Scan.step, wordChar_eq_false hc, hstart]
  | inside ps => cases hlast
  | escape ps => cases hlast
  | code ps more value => cases hlast

theorem run_punct {s : Scan} {rest : List Token} (hlast : s.last = some rest) {c : Char} (hc : punctuation c = true) :
    s.run single (style.spell (.punct c)) = some (rest ++ [.punct c], .between) := by
  have hblank : Scan.between.step single ' ' = some ([], .between) := rfl
  rw [Style.spell]
  split
  · simp [Scan.run, step_punct hlast hc, hblank]
  · simp [Scan.run, step_punct hlast hc]

/-- Punctuation parts any two runs of tokens. -/
theorem Lexes.punct {ts us : List Token} (ht : Lexes single style ts) {c : Char} (hc : punctuation c = true)
    (hu : Lexes single style us) : Lexes single style (ts ++ .punct c :: us) := by
  obtain ⟨out, s, rest, hrun, hlast, rfl⟩ := ht
  obtain ⟨out', s', rest', hrun', hlast', rfl⟩ := hu
  refine ⟨out ++ (rest ++ [.punct c] ++ out'), s', rest', ?_, hlast', by simp⟩
  rw [List.flatMap_append, List.flatMap_cons, run_append, hrun, Option.bind_some, run_append, run_punct hlast hc,
    Option.bind_some, hrun']
  rfl

theorem wordChar_of_next {p q : NumeralPart} {c : Char} (h : p.next c = some q) : wordChar c = true := by
  have hdigit : c.isDigit = true → wordChar c = true := fun hc => by simp [wordChar, Char.isAlphanum, hc]
  have hmark : c = 'e' ∨ c = 'E' → wordChar c = true := by rintro (rfl | rfl) <;> rfl
  have hsign : c = '+' ∨ c = '-' → wordChar c = true := by rintro (rfl | rfl) <;> rfl
  cases p <;> simp only [NumeralPart.next] at h <;> split_ifs at h <;> first | grind | simp_all [wordChar]

theorem wordChar_of_foldlM {p q : NumeralPart} {w : List Char} (h : w.foldlM NumeralPart.next p = some q) :
    ∀ c ∈ w, wordChar c = true := by
  induction w generalizing p with
  | nil => simp
  | cons c w ih =>
    rw [List.foldlM_cons] at h
    obtain ⟨p', hnext, hrest⟩ := Option.bind_eq_some_iff.mp h
    intro d hd
    rcases List.mem_cons.mp hd with rfl | hd
    · exact wordChar_of_next hnext
    · exact ih hrest d hd

theorem wordChar_of_isNumeral {w : List Char} (h : isNumeral w = true) : w ≠ [] ∧ ∀ c ∈ w, wordChar c = true := by
  constructor
  · rintro rfl
    cases h
  · unfold isNumeral at h
    cases hw : w.foldlM NumeralPart.next .start with
    | none => simp [hw] at h
    | some p => exact wordChar_of_foldlM hw

mutual

theorem Value.lexes : ∀ v : Value, (∀ s ∈ v.strings, style.ReadBy single s) → Lexes single style v.tokens
  | .null, _ => lexes_word (by simp) (List.all_eq_true.mp rfl)
  | .bool true, _ => lexes_word (by simp) (List.all_eq_true.mp rfl)
  | .bool false, _ => lexes_word (by simp) (List.all_eq_true.mp rfl)
  | .num n, _ => lexes_word (wordChar_of_isNumeral n.numeral).1 (wordChar_of_isNumeral n.numeral).2
  | .str s, hs => lexes_str (hs s List.mem_cons_self)
  | .arr [], _ => .punct lexes_nil rfl (.punct lexes_nil rfl lexes_nil)
  | .arr (v :: vs), hs => by
    have hv := v.lexes fun s hm => hs s (List.mem_append_left _ hm)
    exact .punct lexes_nil rfl (lexes_moreItems vs (fun s hm => hs s (List.mem_append_right _ hm)) hv)
  | .obj [], _ => .punct lexes_nil rfl (.punct lexes_nil rfl lexes_nil)
  | .obj ((k, v) :: ms), hs => by
    have hk : style.ReadBy single k := hs k List.mem_cons_self
    have hv := v.lexes fun s hm => hs s (List.mem_cons_of_mem k (List.mem_append_left _ hm))
    have hmore := lexes_moreMembers ms (fun s hm => hs s (List.mem_cons_of_mem k (List.mem_append_right _ hm))) hv
    exact .punct lexes_nil rfl ((lexes_str hk).punct rfl hmore)

theorem lexes_moreItems : ∀ vs : List Value, (∀ s ∈ stringsOfItems vs, style.ReadBy single s) →
    ∀ {ts : List Token}, Lexes single style ts → Lexes single style (ts ++ moreItems vs)
  | [], _, _, ht => ht.punct rfl lexes_nil
  | v :: vs, hs, _, ht => by
    have hv := v.lexes fun s hm => hs s (List.mem_append_left _ hm)
    exact ht.punct rfl (lexes_moreItems vs (fun s hm => hs s (List.mem_append_right _ hm)) hv)

theorem lexes_moreMembers : ∀ ms : List (List Char × Value), (∀ s ∈ stringsOfMembers ms, style.ReadBy single s) →
    ∀ {ts : List Token}, Lexes single style ts → Lexes single style (ts ++ moreMembers ms)
  | [], _, _, ht => ht.punct rfl lexes_nil
  | (k, v) :: ms, hs, _, ht => by
    have hk : style.ReadBy single k := hs k List.mem_cons_self
    have hv := v.lexes fun s hm => hs s (List.mem_cons_of_mem k (List.mem_append_left _ hm))
    have hmore := lexes_moreMembers ms (fun s hm => hs s (List.mem_cons_of_mem k (List.mem_append_right _ hm))) hv
    exact ht.punct rfl ((lexes_str hk).punct rfl hmore)

end

end Tokens

/-! ### Values -/

theorem literal_numeral (n : Numeral) : literal n.text = some (.num n) := by
  obtain ⟨w, hw⟩ := n
  have hnull : w ≠ ['n', 'u', 'l', 'l'] := by
    rintro rfl
    cases hw
  have htrue : w ≠ ['t', 'r', 'u', 'e'] := by
    rintro rfl
    cases hw
  have hfalse : w ≠ ['f', 'a', 'l', 's', 'e'] := by
    rintro rfl
    cases hw
  simp [literal, hnull, htrue, hfalse, hw]

/-- No value begins with a closing bracket, so the first item of an array is read like any other. -/
theorem Value.tokens_item (v : Value) (stack : List Open) :
    v.tokens.foldlM Reading.step (.item stack) = v.tokens.foldlM Reading.step (.value (.arr [] :: stack)) := by
  have hstep : ∀ t, t ≠ .punct ']' → Reading.step (.item stack) t = Reading.step (.value (.arr [] :: stack)) t := by
    intro t ht
    cases t with
    | punct c => simp [Reading.step, show c ≠ ']' from fun hc => ht (congrArg _ hc)]
    | word w => rfl
    | str s => rfl
  obtain ⟨t, ts, htokens, ht⟩ : ∃ t ts, v.tokens = t :: ts ∧ t ≠ .punct ']' := by
    cases v with
    | null => exact ⟨_, _, rfl, by simp⟩
    | bool b => cases b <;> exact ⟨_, _, rfl, by simp⟩
    | num n => exact ⟨_, _, rfl, by simp⟩
    | str s => exact ⟨_, _, rfl, by simp⟩
    | arr vs => cases vs <;> exact ⟨_, _, rfl, by simp⟩
    | obj ms => cases ms <;> exact ⟨_, _, rfl, by simp⟩
  rw [htokens, List.foldlM_cons, List.foldlM_cons, hstep t ht]

mutual

theorem Value.parses : ∀ (v : Value) (stack : List Open), v.tokens.foldlM Reading.step (.value stack) = some (.after v stack)
  | .null, _ => rfl
  | .bool true, _ => rfl
  | .bool false, _ => rfl
  | .num n, stack => by simp [Value.tokens, Reading.step, Reading.start, literal_numeral]
  | .str s, _ => rfl
  | .arr [], _ => rfl
  | .arr (v :: vs), stack => by
    have hv : v.tokens.foldlM Reading.step (.item stack) = some (.after v (.arr [] :: stack)) := by
      rw [v.tokens_item, v.parses]
    have hopen : Reading.step (.value stack) (.punct '[') = some (.item stack) := rfl
    rw [Value.tokens, List.foldlM_cons, hopen]
    simp only [Option.bind_eq_bind, Option.bind_some, List.foldlM_append, hv]
    exact parses_moreItems vs v [] stack
  | .obj [], _ => rfl
  | .obj ((k, v) :: ms), stack => by
    have hopen : List.foldlM Reading.step (.value stack) [.punct '\x7b', .str k, .punct ':'] = some (.value (.obj [] k :: stack)) := rfl
    have htokens : Value.tokens (.obj ((k, v) :: ms)) = [.punct '\x7b', .str k, .punct ':'] ++ (v.tokens ++ moreMembers ms) := rfl
    simp only [htokens, List.foldlM_append, hopen, v.parses, Option.bind_eq_bind, Option.bind_some]
    exact parses_moreMembers ms k v [] stack

theorem parses_moreItems : ∀ (vs : List Value) (v : Value) (before : List Value) (stack : List Open),
    (moreItems vs).foldlM Reading.step (.after v (.arr before :: stack)) = some (.after (.arr (before.reverse ++ v :: vs)) stack)
  | [], v, before, stack => by simp [moreItems, Reading.step]
  | u :: vs, v, before, stack => by
    have hcomma : Reading.step (.after v (.arr before :: stack)) (.punct ',') = some (.value (.arr (v :: before) :: stack)) := rfl
    simp only [moreItems, List.foldlM_cons, List.foldlM_append, hcomma, u.parses, Option.bind_eq_bind, Option.bind_some]
    rw [parses_moreItems vs u (v :: before) stack]
    simp

theorem parses_moreMembers : ∀ (ms : List (List Char × Value)) (k : List Char) (v : Value) (before : List (List Char × Value))
    (stack : List Open), (moreMembers ms).foldlM Reading.step (.after v (.obj before k :: stack)) =
      some (.after (.obj (before.reverse ++ (k, v) :: ms)) stack)
  | [], k, v, before, stack => by simp [moreMembers, Reading.step]
  | (j, u) :: ms, k, v, before, stack => by
    have hkey : List.foldlM Reading.step (.after v (.obj before k :: stack)) [.punct ',', .str j, .punct ':'] =
        some (.value (.obj ((k, v) :: before) j :: stack)) := rfl
    have htokens : moreMembers ((j, u) :: ms) = [.punct ',', .str j, .punct ':'] ++ (u.tokens ++ moreMembers ms) := rfl
    simp only [htokens, List.foldlM_append, hkey, u.parses, Option.bind_eq_bind, Option.bind_some]
    rw [parses_moreMembers ms j u ((k, v) :: before) stack]
    simp

end

theorem parse_tokens (v : Value) : parse v.tokens = some v := by simp [parse, v.parses, Reading.result]

/-- **What is written is read back**, in any style, by a reader that has back every
character the style escapes with its code. -/
theorem read_text {single : ℕ → Option Char} {style : Style} {v : Value} (hs : ∀ s ∈ v.strings, style.ReadBy single s) :
    read single (style.text v) = some v := by
  rw [read, Style.text, lex_of_lexes (v.lexes hs), Option.bind_some, parse_tokens]

/-! ## Texts without NUL -/

theorem step_nul (single : ℕ → Option Char) (s : Scan) : s.step single '\x00' = none := by
  cases s with
  | between => rfl
  | word w => rfl
  | inside ps => rfl
  | escape ps => rfl
  | code ps more value => cases more <;> rfl

theorem notMem_of_run {single : ℕ → Option Char} {s : Scan} {cs : List Char} {r : List Token × Scan}
    (h : s.run single cs = some r) : '\x00' ∉ cs := by
  induction cs generalizing s r with
  | nil => simp
  | cons c cs ih =>
    obtain ⟨r₁, hstep, hrest⟩ := Option.bind_eq_some_iff.mp h
    obtain ⟨r₂, hrun, -⟩ := Option.map_eq_some_iff.mp hrest
    rw [List.mem_cons, not_or]
    refine ⟨?_, ih hrun⟩
    rintro rfl
    rw [step_nul] at hstep
    cases hstep

/-- A text that is read holds no NUL: the strings in it escape theirs. -/
theorem notMem_of_read {single : ℕ → Option Char} {text : List Char} {v : Value} (h : read single text = some v) :
    '\x00' ∉ text := by
  obtain ⟨ts, hlex, -⟩ := Option.bind_eq_some_iff.mp h
  obtain ⟨r, hrun, -⟩ := Option.bind_eq_some_iff.mp hlex
  exact notMem_of_run hrun

end Lib.JsonText
