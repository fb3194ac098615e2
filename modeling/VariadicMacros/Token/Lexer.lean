/-
**The lexer: a text as its longest lexemes.**

Source text is split into preprocessing tokens: identifiers, numbers, quoted literals and
punctuators, each the longest that the text at its place allows.  The lexer proceeds lexeme by
lexeme; every scanner returns the characters it took and the characters it left, so that nothing
is lost, and takes at least one, so that the lexer ends.

Main definitions:

* `VariadicMacros.Lexeme.scan` — the lexeme at the start of a text;
* `VariadicMacros.Token.lexFrom` — the tokens of a text that starts at a byte offset;
* `VariadicMacros.Token.lex` — the tokens of a text, or the first lexical error in it;
* `VariadicMacros.Token.ofText?` — the one token that a whole text spells.

Main results:

* `VariadicMacros.Lexeme.append_of_scan` — what is taken followed by what is left is the text;
* `VariadicMacros.Lexeme.text_ne_nil_of_scan` — a lexeme is never empty;
* `VariadicMacros.pairwise_punctuators` — the longest punctuator is found first.
-/

import VariadicMacros.MacroError
import VariadicMacros.Text.Character
import VariadicMacros.Token

set_option autoImplicit false

namespace VariadicMacros

open Text

/-! ### Scanning one lexeme -/

/-- A lexeme split off the front of a text. -/
structure Lexeme where
  kind : Kind
  /-- The characters of the lexeme. -/
  text : List Char
  /-- The characters after it. -/
  rest : List Char
  deriving DecidableEq, Repr

/-- Why no lexeme starts at a place. -/
inductive LexemeFault
  /-- A quote is not closed before the line ends. -/
  | unclosed
  /-- The character begins no lexeme. -/
  | unexpected (c : Char)
  deriving DecidableEq, Repr

/-- The punctuators: first those that begin no other one, then the others with the longer ones
before their own beginnings. -/
def punctuators : List (List Char) :=
  ["(", ",", ")", "[", "]", "\x7b", "\x7d", ";", "?", "~",
    "...", "<<=", ">>=", "##", "->", "++", "--", "<<", ">>", "<=", ">=", "==", "!=", "&&", "||",
    "+=", "-=", "*=", "/=", "%=", "&=", "|=", "^=", "::",
    "#", ":", ".", "+", "-", "*", "/", "%", "<", ">", "=", "!", "&", "|", "^"].map String.toList

/-- No punctuator comes after one that it begins with. -/
theorem pairwise_punctuators :
    punctuators.Pairwise fun p q => p.isPrefixOf q = false := by decide

namespace Lexeme

/-- Splits off the rest of an identifier; `taken` holds its characters so far, the last one
first. -/
def scanName (taken : List Char) : List Char → List Char × List Char
  | [] => (taken.reverse, [])
  | c :: cs => if isNameChar c then scanName (c :: taken) cs else (taken.reverse, c :: cs)

/-- Splits off the rest of a number; `taken` holds its characters so far, the last one first. -/
def scanNumber (previous : Char) (taken : List Char) : List Char → List Char × List Char
  | [] => (taken.reverse, [])
  | c :: cs =>
    if isNumberChar previous c then scanNumber c (c :: taken) cs else (taken.reverse, c :: cs)

/-- Splits off the rest of a literal up to its closing quote; a backslash takes the character
after it along, and an unescaped line feed leaves the literal open. -/
def scanLiteral (quote : Char) (escaped : Bool) (taken : List Char) :
    List Char → Option (List Char × List Char)
  | [] => none
  | c :: cs =>
    if escaped then scanLiteral quote false (c :: taken) cs
    else if c = '\\' then scanLiteral quote true (c :: taken) cs
    else if c = quote then some ((c :: taken).reverse, cs)
    else if c = '\n' then none
    else scanLiteral quote false (c :: taken) cs

/-- Whether a text starts with a digit. -/
def startsWithDigit : List Char → Bool
  | [] => false
  | c :: _ => c.isDigit

/-- The lexeme at the start of the text `c :: cs`. -/
def scan (c : Char) (cs : List Char) : Except LexemeFault Lexeme :=
  if isNameStart c then
    let split := scanName [c] cs
    .ok ⟨.identifier, split.1, split.2⟩
  else if c.isDigit || (c == '.' && startsWithDigit cs) then
    let split := scanNumber c [c] cs
    .ok ⟨.number, split.1, split.2⟩
  else if c == '"' || c == '\'' then
    match scanLiteral c false [c] cs with
    | some split => .ok ⟨.literal, split.1, split.2⟩
    | none => .error .unclosed
  else
    match punctuators.find? (·.isPrefixOf (c :: cs)) with
    | some p => .ok ⟨.punctuator, p, (c :: cs).drop p.length⟩
    | none => .error (.unexpected c)

/-! ### Nothing is lost and something is taken -/

/-- An identifier takes the characters of identifiers and leaves the rest. -/
theorem scanName_eq (taken cs : List Char) :
    scanName taken cs = (taken.reverse ++ cs.takeWhile isNameChar, cs.dropWhile isNameChar) := by
  induction cs generalizing taken with
  | nil => simp [scanName]
  | cons c cs ih =>
      rw [scanName]
      split
      · next h =>
        rw [ih]
        simp [h]
      · next h => simp [h]

theorem scanNumber_append (previous : Char) (taken cs : List Char) :
    (scanNumber previous taken cs).1 ++ (scanNumber previous taken cs).2 =
      taken.reverse ++ cs := by
  induction cs generalizing previous taken with
  | nil => simp [scanNumber]
  | cons c cs ih =>
      rw [scanNumber]
      split
      · rw [ih]
        simp
      · rfl

theorem length_le_scanNumber (previous : Char) (taken cs : List Char) :
    taken.length ≤ (scanNumber previous taken cs).1.length := by
  induction cs generalizing previous taken with
  | nil => simp [scanNumber]
  | cons c cs ih =>
      rw [scanNumber]
      split
      · exact Nat.le_trans (by simp) (ih c (c :: taken))
      · simp

theorem scanLiteral_append {quote : Char} {escaped : Bool} {taken cs text rest : List Char}
    (h : scanLiteral quote escaped taken cs = some (text, rest)) :
    text ++ rest = taken.reverse ++ cs := by
  induction cs generalizing escaped taken with
  | nil => simp [scanLiteral] at h
  | cons c cs ih =>
      rw [scanLiteral] at h
      split at h
      · simpa using ih h
      · split at h
        · simpa using ih h
        · split at h
          · cases h
            simp
          · split at h
            · cases h
            · simpa using ih h

theorem length_le_scanLiteral {quote : Char} {escaped : Bool} {taken cs text rest : List Char}
    (h : scanLiteral quote escaped taken cs = some (text, rest)) :
    taken.length ≤ text.length := by
  induction cs generalizing escaped taken with
  | nil => simp [scanLiteral] at h
  | cons c cs ih =>
      rw [scanLiteral] at h
      split at h
      · exact Nat.le_trans (by simp) (ih h)
      · split at h
        · exact Nat.le_trans (by simp) (ih h)
        · split at h
          · cases h
            simp
          · split at h
            · cases h
            · exact Nat.le_trans (by simp) (ih h)

/-- No punctuator is empty. -/
theorem ne_nil_of_mem_punctuators {p : List Char} (h : p ∈ punctuators) : p ≠ [] := by
  revert p
  decide

/-- **Nothing is lost**: the lexeme followed by what is left is the text. -/
theorem append_of_scan {c : Char} {cs : List Char} {l : Lexeme} (h : scan c cs = .ok l) :
    l.text ++ l.rest = c :: cs := by
  unfold scan at h
  split at h
  · cases h
    simp [scanName_eq]
  · split at h
    · cases h
      simpa using scanNumber_append c [c] cs
    · split at h
      · split at h
        · next split hs =>
          cases h
          simpa using scanLiteral_append hs
        · cases h
      · split at h
        · next p hp =>
          cases h
          have := List.find?_some hp
          simp only [List.isPrefixOf_iff_prefix] at this
          obtain ⟨rest, hr⟩ := this
          simp [← hr]
        · cases h

/-- **Something is taken**: a lexeme is not empty. -/
theorem text_ne_nil_of_scan {c : Char} {cs : List Char} {l : Lexeme} (h : scan c cs = .ok l) :
    l.text ≠ [] := by
  unfold scan at h
  split at h
  · cases h
    simp [scanName_eq]
  · split at h
    · cases h
      exact List.length_pos_iff.1 (length_le_scanNumber c [c] cs)
    · split at h
      · split at h
        · next split hs =>
          cases h
          exact List.length_pos_iff.1 (length_le_scanLiteral hs)
        · cases h
      · split at h
        · next p hp =>
          cases h
          exact ne_nil_of_mem_punctuators (List.mem_of_find?_eq_some hp)
        · cases h

/-- What is left after a lexeme is shorter than the text. -/
theorem length_rest_lt_of_scan {c : Char} {cs : List Char} {l : Lexeme} (h : scan c cs = .ok l) :
    l.rest.length < cs.length + 1 := by
  have happ := congrArg List.length (append_of_scan h)
  have hpos := List.length_pos_iff.2 (text_ne_nil_of_scan h)
  simp only [List.length_append, List.length_cons] at happ
  omega

end Lexeme

/-! ### Splitting a text -/

namespace Token

/-- Splits a text that starts at byte `offset` into tokens.  `spaced` says whether a blank stands
right before the text, and `done` holds the tokens so far, the last one first. -/
def lexFrom (offset : Nat) (spaced : Bool) (done : List Token) (cs : List Char) :
    Except MacroError (List Token) :=
  match cs with
  | [] => .ok done.reverse
  | c :: cs =>
    if isBlank c then lexFrom (offset + c.utf8Size) true done cs
    else
      match h : Lexeme.scan c cs with
      | .error .unclosed => .error (.unterminated .literal offset)
      | .error (.unexpected c) => .error (.unexpectedCharacter c offset)
      | .ok l =>
        have := Lexeme.length_rest_lt_of_scan h
        let text := String.ofList l.text
        lexFrom (offset + text.utf8ByteSize) false (⟨l.kind, text, spaced⟩ :: done) l.rest
  termination_by cs.length

/-- The tokens of a character list. -/
def lexChars (cs : List Char) : Except MacroError (List Token) := lexFrom 0 false [] cs

/-- The tokens of a text; blanks, line feeds among them, only separate tokens. -/
def lex (text : String) : Except MacroError (List Token) := lexChars text.toList

/-- The token that a whole text spells, if it spells exactly one. -/
def ofText? (text : String) : Option Token :=
  match lex text with
  | .ok [t] => some t
  | _ => none

end Token

end VariadicMacros
