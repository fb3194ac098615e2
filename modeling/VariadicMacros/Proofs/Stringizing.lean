/-
**The literal that `#` makes.**

`#` writes the spelling of an argument between quotes, with a backslash before every quote and every
backslash of a literal in it.  Other tokens hold neither, so that the characters between the quotes
stand for the spelling: it comes back when the backslashes are taken away.

What stands there is the body of a literal, but for the line feeds in it.  Inside of a literal a
line feed needs a backslash before it, and in the new literal this backslash has one of its own and
escapes nothing more.  So the literal is read as one token when the spelling holds no line feed, and
is open at the end of its line otherwise.

Main definitions:

* `VariadicMacros.Lexeme.Quotes` — characters between quotes that stand for a text;
* `VariadicMacros.Lexeme.unescape` — the text that such characters stand for.

Main results:

* `VariadicMacros.Token.lex_of_quotes` — a literal is read unless it stands for a line feed;
* `VariadicMacros.Substitution.exists_quotes_stringize` — what stands between the quotes that `#`
  adds stands for the spelling of the argument;
* `VariadicMacros.Substitution.lex_stringize` — **the literal that `#` makes is read unless there is
  a line feed in the spelling**.
-/

import VariadicMacros.Proofs.LexicalErrors
import VariadicMacros.Proofs.PrintedTokens
import VariadicMacros.Substitution

set_option autoImplicit false

namespace VariadicMacros

open Text

namespace Lexeme

/-! ### Characters of lexemes -/

theorem mem_of_continuesNumber {previous : Char} {cs : List Char}
    (h : continuesNumber previous cs = true) :
    ∀ c ∈ cs, ∃ before, isNumberChar before c = true := by
  induction cs generalizing previous with
  | nil => simp
  | cons c cs ih =>
      rw [continuesNumber, Bool.and_eq_true] at h
      rw [List.forall_mem_cons]
      exact ⟨⟨previous, h.1⟩, ih h.2⟩

/-- Only literals hold characters that go on with no number and are in no punctuator. -/
theorem notMem_of_isLexeme {k : Kind} {cs : List Char} (h : isLexeme k cs = true)
    (hk : k ≠ .literal) {c : Char} (hnumber : ∀ previous, isNumberChar previous c = false)
    (hmark : ∀ p ∈ punctuators, c ∉ p) : c ∉ cs := by
  have hchars := hnumber ' '
  simp only [isNumberChar, Bool.or_eq_false_iff] at hchars
  intro hc
  cases k with
  | literal => exact hk rfl
  | identifier =>
      have hname := List.all_eq_true.1 (all_isNameChar_of_isIdentifier h) c hc
      simp [isNameChar, hchars.1.1] at hname
  | number =>
      cases cs with
      | nil => cases h
      | cons d cs =>
          rw [isLexeme, isNumber, Bool.and_eq_true] at h
          rcases List.mem_cons.1 hc with rfl | hc
          · have hdigit : c.isDigit = false := (Bool.or_eq_false_iff.1 hchars.1.1.1).2
            simp [hdigit, hchars.1.2] at h
          · obtain ⟨before, hbefore⟩ := mem_of_continuesNumber h.2 c hc
            rw [hnumber] at hbefore
            cases hbefore
  | punctuator => exact hmark cs (List.contains_iff_mem.1 h) hc

/-- Only literals hold quotes. -/
theorem ne_quote_of_isLexeme {k : Kind} {cs : List Char} (h : isLexeme k cs = true)
    (hk : k ≠ .literal) : ∀ c ∈ cs, ¬(c = '"' ∨ c = '\'') := by
  rintro c hc (rfl | rfl)
  · exact notMem_of_isLexeme h hk (fun _ => rfl) (by decide) hc
  · exact notMem_of_isLexeme h hk (fun _ => rfl) (by decide) hc

/-- The characters that end or break a literal. -/
def isSpecial (c : Char) : Bool := c == '"' || c == '\\' || c == '\n'

/-- Only literals hold quotes, backslashes and line feeds. -/
theorem isSpecial_eq_false_of_isLexeme {k : Kind} {cs : List Char} (h : isLexeme k cs = true)
    (hk : k ≠ .literal) : ∀ c ∈ cs, isSpecial c = false := by
  intro c hc
  rw [Bool.eq_false_iff]
  intro hspecial
  simp only [isSpecial, Bool.or_eq_true, beq_iff_eq, or_assoc] at hspecial
  rcases hspecial with rfl | rfl | rfl
  · exact notMem_of_isLexeme h hk (fun _ => rfl) (by decide) hc
  · exact notMem_of_isLexeme h hk (fun _ => rfl) (by decide) hc
  · exact notMem_of_isLexeme h hk (fun _ => rfl) (by decide) hc

/-! ### Quoted characters -/

/-- Between double quotes the first characters stand for the second ones: a quote or a backslash is
written with a backslash before it, and every other character as it is. -/
inductive Quotes : List Char → List Char → Prop
  | nil : Quotes [] []
  | plain {c : Char} {cs meant : List Char} (hc : c ≠ '"' ∧ c ≠ '\\') (h : Quotes cs meant) :
      Quotes (c :: cs) (c :: meant)
  | escaped {c : Char} {cs meant : List Char} (hc : c = '"' ∨ c = '\\') (h : Quotes cs meant) :
      Quotes ('\\' :: c :: cs) (c :: meant)

/-- Takes away the backslashes of a literal: each one makes the character after it stand for
itself. -/
def unescape : List Char → List Char
  | '\\' :: c :: cs => c :: unescape cs
  | c :: cs => c :: unescape cs
  | [] => []

/-- Characters that are not special stand for themselves. -/
theorem quotes_self {cs : List Char} (h : ∀ c ∈ cs, isSpecial c = false) : Quotes cs cs := by
  induction cs with
  | nil => exact .nil
  | cons c cs ih =>
      rw [List.forall_mem_cons] at h
      have hc : c ≠ '"' ∧ c ≠ '\\' ∧ c ≠ '\n' := by
        simpa [isSpecial, Bool.or_eq_false_iff, and_assoc] using h.1
      exact .plain ⟨hc.1, hc.2.1⟩ (ih h.2)

/-- The characters of a literal stand inside another one when they are escaped. -/
theorem quotes_escapeLiteral (cs : List Char) : Quotes (Substitution.escapeLiteral cs) cs := by
  induction cs with
  | nil => exact .nil
  | cons c cs ih =>
      rw [Substitution.escapeLiteral]
      split
      · next hc => exact .escaped hc ih
      · next hc => exact .plain (not_or.1 hc) ih

namespace Quotes

variable {cs meant : List Char}

theorem append {ds other : List Char} (h : Quotes cs meant) (h' : Quotes ds other) :
    Quotes (cs ++ ds) (meant ++ other) := by
  induction h with
  | nil => exact h'
  | plain hc _ ih => exact .plain hc ih
  | escaped hc _ ih => exact .escaped hc ih

/-- What is meant comes back when the backslashes are taken away. -/
theorem unescape_eq (h : Quotes cs meant) : unescape cs = meant := by
  induction h with
  | nil => rfl
  | @plain c cs meant hc _ ih =>
      have hne : ∀ d ds, c = '\\' → cs = d :: ds → False := fun _ _ heq => absurd heq hc.2
      rw [unescape.eq_2 c cs hne, ih]
  | escaped _ _ ih => rw [unescape, ih]

/-- Without line feeds the characters are the body of a literal. -/
theorem literalBody (h : Quotes cs meant) (hline : '\n' ∉ meant) : LiteralBody '"' cs := by
  induction h with
  | nil => exact .nil
  | plain hc _ ih =>
      rw [List.mem_cons, not_or] at hline
      exact .plain ⟨hc.2, hc.1, Ne.symm hline.1⟩ (ih hline.2)
  | escaped _ _ ih =>
      rw [List.mem_cons, not_or] at hline
      exact .escaped _ (ih hline.2)

/-- Before the first line feed the characters are the body of a literal. -/
theorem exists_literalBody (h : Quotes cs meant) (hline : '\n' ∈ meant) :
    ∃ body rest, body ++ '\n' :: rest = cs ∧ LiteralBody '"' body := by
  induction h with
  | nil => cases hline
  | @plain c cs meant hc _ ih =>
      by_cases hfirst : c = '\n'
      · exact ⟨[], cs, by rw [hfirst]; rfl, .nil⟩
      · have hlater := (List.mem_cons.1 hline).resolve_left (Ne.symm hfirst)
        obtain ⟨body, rest, rfl, hbody⟩ := ih hlater
        exact ⟨c :: body, rest, rfl, .plain ⟨hc.2, hc.1, hfirst⟩ hbody⟩
  | @escaped c cs meant hc _ ih =>
      have hfirst : '\n' ≠ c := by
        rintro rfl
        rcases hc with hc | hc <;> cases hc
      obtain ⟨body, rest, rfl, hbody⟩ := ih ((List.mem_cons.1 hline).resolve_left hfirst)
      exact ⟨'\\' :: c :: body, rest, rfl, .escaped c hbody⟩

end Quotes

end Lexeme

open Lexeme (isLexeme Quotes)

namespace Token

/-- A lexeme is read as itself. -/
theorem lex_of_isLexeme {t : Token} (h : isLexeme t.kind t.text.toList = true) :
    lex t.text = .ok [{ t with spaced := false }] :=
  (readsBack_singleton_iff.2 h).lex_spell

/-- **A literal is read unless it stands for a line feed.** -/
theorem lex_of_quotes {text : String} {cs meant : List Char} (h : Quotes cs meant)
    (htext : text.toList = '"' :: (cs ++ ['"'])) :
    lex text = if '\n' ∈ meant then .error (.unterminated .literal 0)
      else .ok [⟨.literal, text, false⟩] := by
  split
  · next hline =>
    obtain ⟨body, rest, rfl, hbody⟩ := h.exists_literalBody hline
    have hstops : StopsAt 0 text.toList (.unterminated .literal 0) := by
      rw [htext, List.append_assoc]
      exact .unterminated (.inl rfl) hbody (.inr (.inr rfl))
    exact hstops.lexFrom_eq false []
  · next hline =>
    have hquoted : isLexeme .literal text.toList = true :=
      Lexeme.isQuoted_iff.2 ⟨'"', cs, .inl rfl, h.literalBody hline, htext⟩
    exact lex_of_isLexeme (t := ⟨.literal, text, false⟩) hquoted

end Token

namespace Substitution

/-! ### What stands between the quotes -/

/-- Tokens that are no literals are lexemes. -/
def Spellable (ts : List Token) : Prop :=
  ∀ t ∈ ts, t.kind ≠ .literal → isLexeme t.kind t.text.toList = true

theorem quotes_quotedText {t : Token}
    (h : t.kind ≠ .literal → isLexeme t.kind t.text.toList = true) :
    Quotes (quotedText t).toList t.text.toList := by
  unfold quotedText
  split
  · rw [String.toList_ofList]
    exact Lexeme.quotes_escapeLiteral _
  · next hkind =>
    exact Lexeme.quotes_self (Lexeme.isSpecial_eq_false_of_isLexeme (h hkind) hkind)

/-- Tokens with their spellings as in a literal stand for the tokens with their spaces. -/
theorem quotes_written {ts : List Token} (h : Spellable ts) :
    Quotes (Token.written (quotedTokens ts)) (Token.written ts) := by
  induction ts with
  | nil => exact .nil
  | cons t ts ih =>
      obtain ⟨ht, hts⟩ := List.forall_mem_cons.1 h
      have hspace : Quotes [' '] [' '] := Lexeme.quotes_self (by simp [Lexeme.isSpecial])
      have hchars : Quotes (Token.chars { t with text := quotedText t }) (Token.chars t) := by
        unfold Token.chars
        cases t.spaced with
        | false => exact quotes_quotedText ht
        | true => exact hspace.append (quotes_quotedText ht)
      exact hchars.append (ih hts)

theorem respace_quotedTokens (b : Bool) (ts : List Token) :
    Token.respace b (quotedTokens ts) = quotedTokens (Token.respace b ts) := by
  cases ts <;> rfl

theorem Spellable.respace {ts : List Token} (h : Spellable ts) (b : Bool) :
    Spellable (Token.respace b ts) := by
  cases ts with
  | nil => exact h
  | cons t ts => exact List.forall_mem_cons.2 (List.forall_mem_cons.1 h)

section Literals

variable {argument : List Painted} (h : Spellable (argument.map Painted.toToken))

include h

/-- What stands between the quotes of the literal stands for the spelling of the argument. -/
theorem exists_quotes_stringize (spaced : Bool) :
    ∃ inner, (stringize argument spaced).text.toList = '"' :: (inner ++ ['"']) ∧
      Quotes inner (Token.spell (argument.map Painted.toToken)).toList := by
  refine ⟨Token.written (quotedTokens (Token.respace false (argument.map Painted.toToken))), ?_, ?_⟩
  · simp [stringize, Painted.plain, Token.toList_spellOnto, respace_quotedTokens]
  · rw [Token.toList_spell]
    exact quotes_written (h.respace false)

/-- **The literal that `#` makes is read as one token unless there is a line feed in the spelling of
the argument.** -/
theorem lex_stringize (spaced : Bool) :
    Token.lex (stringize argument spaced).text =
      if '\n' ∈ (Token.spell (argument.map Painted.toToken)).toList
      then .error (.unterminated .literal 0)
      else .ok [{ (stringize argument spaced).toToken with spaced := false }] := by
  obtain ⟨inner, htext, hquotes⟩ := exists_quotes_stringize h spaced
  exact Token.lex_of_quotes hquotes htext

end Literals

end Substitution

end VariadicMacros
