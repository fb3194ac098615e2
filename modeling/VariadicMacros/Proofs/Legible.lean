/-
**Token lists that are read back from what is written.**

A token list is written by putting a space where the mark of a token asks for one.  Two tokens
that touch may merge: the lexer takes the longest lexeme, so that a name runs on into a name.
This module says when nothing merges.  A name or a number has to be followed by a space, by a
parenthesis, a comma or a semicolon, or by nothing; the punctuators used in replacement lists may
be followed by everything.

Main definitions:

* `VariadicMacros.Token.written` — the characters of a token list;
* `VariadicMacros.Token.endsEach` — every token of a list is a lexeme that ends where the next one
  begins;
* `VariadicMacros.Token.fits` — a test of a token and the next one, enough for the former to end;
* `VariadicMacros.Token.legible` — every token of a list fits.

Main results:

* `VariadicMacros.Token.lexChars_written` — **a legible list is read back from its characters**;
* `VariadicMacros.Token.ofText?_identifier` — a text that is an identifier spells that one token.
-/

import VariadicMacros.Proofs.LexicalGrammar

set_option autoImplicit false

namespace VariadicMacros

open Text

namespace Text

/-! ### Where names and numbers end -/

/-- Whether a name or a number may end right before a text. -/
def endsWord (cs : List Char) : Bool := !cs.head?.any fun c => isNameChar c || c == '.'

/-- The digits of a numeral are not empty and go on with digits only. -/
theorem toList_toString_eq_cons (n : Nat) :
    ∃ c cs, (toString n).toList = c :: cs ∧ c.isDigit = true ∧ ∀ d ∈ cs, d.isDigit = true := by
  have hall : ∀ d ∈ (toString n).toList, d.isDigit = true := by
    intro d hd
    rw [Nat.toString_eq_repr, Nat.toList_repr] at hd
    exact Nat.isDigit_of_mem_toDigits (by decide) (by decide) hd
  cases h : (toString n).toList with
  | nil =>
      rw [Nat.toString_eq_repr, Nat.toList_repr] at h
      exact absurd h Nat.toDigits_ne_nil
  | cons c cs =>
      rw [h] at hall
      exact ⟨c, cs, rfl, hall c (by simp), fun d hd => hall d (by simp [hd])⟩

end Text

namespace Lexeme

/-! ### Lexemes that are easy to read -/

/-- A number of digits ends where a word ends. -/
theorem endsBefore_digits {cs rest : List Char} (h : ∀ c ∈ cs, c.isDigit = true)
    (hrest : endsWord rest = true) : endsBefore .number cs rest = true := by
  -- A sign goes on with a number only after the letter of an exponent, and a digit is none.
  have hlast : ∀ e : Char, e.isDigit = false → ' ' ≠ e → cs.getLast?.getD ' ' ≠ e := by
    intro e he hspace
    cases hcs : cs.getLast? with
    | none => exact hspace
    | some c =>
        rintro (rfl : c = e)
        rw [h c (List.mem_of_getLast? hcs)] at he
        cases he
  cases rest with
  | nil => rfl
  | cons d rest =>
      simp only [endsWord, List.head?_cons, Option.any_some, Bool.not_eq_true',
        Bool.or_eq_false_iff, isNameChar] at hrest
      simp [endsBefore, isNumberChar, hrest, hlast 'e' rfl (by decide), hlast 'E' rfl (by decide),
        hlast 'p' rfl (by decide), hlast 'P' rfl (by decide)]

/-- The digits of a number go on with it. -/
theorem continuesNumber_digits {previous : Char} {cs : List Char}
    (h : ∀ c ∈ cs, c.isDigit = true) : continuesNumber previous cs = true := by
  induction cs generalizing previous with
  | nil => rfl
  | cons c cs ih =>
      rw [List.forall_mem_cons] at h
      simp [continuesNumber, isNumberChar, Char.isAlphanum, h.1, ih h.2]

/-- A text in quotes without escapes is a literal. -/
theorem closesLiteral_plain {quote : Char} {cs : List Char}
    (h : ∀ c ∈ cs, c ≠ '\\' ∧ c ≠ quote ∧ c ≠ '\n') (hq : quote ≠ '\\') :
    closesLiteral quote false (cs ++ [quote]) = true := by
  induction cs with
  | nil => simp [closesLiteral, hq]
  | cons c cs ih =>
      obtain ⟨h₁, h₂, h₃⟩ := h c (by simp)
      rw [List.cons_append, closesLiteral, if_neg Bool.false_ne_true, if_neg h₁, if_neg h₂,
        if_neg h₃]
      exact ih fun d hd => h d (by simp [hd])

end Lexeme

namespace Token

open Lexeme (isLexeme endsBefore)

/-! ### Writing tokens -/

/-- The characters of a token, after a space where its mark asks for one. -/
def chars (t : Token) : List Char := if t.spaced then ' ' :: t.text.toList else t.text.toList

/-- The characters of a token list. -/
def written (ts : List Token) : List Char := ts.flatMap chars

@[simp] theorem written_nil : written [] = [] := rfl

@[simp] theorem written_cons (t : Token) (ts : List Token) :
    written (t :: ts) = t.chars ++ written ts := rfl

@[simp] theorem written_append (ts us : List Token) :
    written (ts ++ us) = written ts ++ written us := by
  simp [written]

theorem toList_spellOnto (out : String) (ts : List Token) :
    (spellOnto out ts).toList = out.toList ++ written ts := by
  induction ts generalizing out with
  | nil => simp
  | cons t ts ih =>
      rw [spellOnto_cons, ih, written_cons, chars]
      split <;> simp

/-- A text that is spelled starts with no space. -/
theorem toList_spell (ts : List Token) : (spell ts).toList = written (respace false ts) := by
  cases ts with
  | nil => rfl
  | cons t ts => rw [spell_cons, toList_spellOnto, respace_cons, written_cons, chars, if_neg (by simp)]

/-! ### Tokens that end where the next one begins -/

/-- Every token of a list is a lexeme and ends where the text of those after it begins. -/
def endsEach : List Token → Bool
  | [] => true
  | t :: ts =>
    isLexeme t.kind t.text.toList && endsBefore t.kind t.text.toList (written ts) && endsEach ts

theorem endsEach_respace (b : Bool) (ts : List Token) : endsEach (respace b ts) = endsEach ts := by
  cases ts <;> rfl

/-- A token is read after a space where its mark asks for one. -/
theorem reads_chars_append {spaced : Bool} {t : Token} {rest : List Char} {us : List Token} :
    Reads spaced (t.chars ++ rest) us ↔ Reads (spaced || t.spaced) (t.text.toList ++ rest) us := by
  rw [chars]
  cases ht : t.spaced with
  | false => simp
  | true =>
      rw [if_pos rfl, List.cons_append, Bool.or_true]
      exact ⟨fun h => h.of_blank (by decide), .blank (by decide)⟩

/-- Tokens that end where the next ones begin are read with their spaces. -/
theorem reads_of_endsEach {ts : List Token} (h : endsEach ts = true) :
    Reads false (written ts) ts := by
  induction ts with
  | nil => exact .nil false
  | cons t ts ih =>
      rw [endsEach, Bool.and_eq_true, Bool.and_eq_true] at h
      rw [written_cons, reads_chars_append, Bool.false_or]
      have hread : Reads t.spaced (t.text.toList ++ written ts)
          (⟨t.kind, String.ofList t.text.toList, t.spaced⟩ :: ts) := .lexeme h.1.1 h.1.2 (ih h.2)
      rwa [String.ofList_toList] at hread

/-! ### Tokens that do not merge with the next one -/

/-- The punctuators that no character after them changes. -/
def solid : List String := ["(", ")", ",", ";", "...", "##"]

/-- Whether a token may stand right after a name or a number. -/
def standsApart (t : Token) : Bool :=
  t.spaced || (t.kind == .punctuator && ["(", ")", ",", ";", "##"].contains t.text)

/-- A nonempty text of digits. -/
def isNumeral : List Char → Bool
  | [] => false
  | c :: cs => c.isDigit && cs.all Char.isDigit

/-- A text in double quotes that holds no escape and no line end. -/
def isPlainLiteral : List Char → Bool
  | '"' :: cs =>
    cs.getLast? == some '"' &&
      cs.dropLast.all fun c => c != '\\' && c != '"' && c != '\n' && c != '\r'
  | _ => false

/-- A name that touches the token before it. -/
def touchingName (t : Token) : Bool :=
  !t.spaced && t.kind == .identifier && isIdentifier t.text.toList

/-- Whether a token is a lexeme that ends where the next token, if there is one, begins. -/
def fits (t : Token) (next : Option Token) : Bool :=
  match t.kind with
  | .identifier => isIdentifier t.text.toList && next.all standsApart
  | .number => isNumeral t.text.toList && next.all standsApart
  | .literal => isPlainLiteral t.text.toList
  | .punctuator =>
    solid.contains t.text || (t.text == "#" && next.any touchingName)

/-- Whether every token of a list that stands before `next` ends where the next token begins. -/
def legibleBefore (next : Option Token) : List Token → Bool
  | [] => true
  | t :: ts => t.fits (ts.head?.or next) && legibleBefore next ts

/-- Whether every token of a list ends where the next token begins. -/
def legible (ts : List Token) : Bool := legibleBefore none ts

@[simp] theorem legibleBefore_nil (next : Option Token) : legibleBefore next [] = true := rfl

@[simp] theorem legibleBefore_cons (next : Option Token) (t : Token) (ts : List Token) :
    legibleBefore next (t :: ts) = (t.fits (ts.head?.or next) && legibleBefore next ts) := rfl

@[simp] theorem legibleBefore_append (next : Option Token) (ts us : List Token) :
    legibleBefore next (ts ++ us) =
      (legibleBefore (us.head?.or next) ts && legibleBefore next us) := by
  induction ts with
  | nil => simp
  | cons t ts ih => simp [ih, Bool.and_assoc, Option.or_assoc]

/-- What follows a name or a number ends it. -/
theorem endsWord_written {us : List Token} (h : us.head?.all standsApart = true) :
    endsWord (written us) = true := by
  cases us with
  | nil => rfl
  | cons u us =>
      simp only [List.head?_cons, Option.all_some, standsApart, Bool.or_eq_true,
        Bool.and_eq_true, beq_iff_eq] at h
      by_cases hs : u.spaced = true
      · simp [endsWord, chars, hs, isNameChar, Char.isAlphanum, Char.isAlpha, Char.isUpper,
          Char.isLower, Char.isDigit]
      · have hmem : u.text ∈ ["(", ")", ",", ";", "##"] := by
          simpa using (h.resolve_left hs).2
        simp only [List.mem_cons, List.not_mem_nil, or_false] at hmem
        rcases hmem with h | h | h | h | h <;>
          simp [endsWord, chars, hs, h] <;> rfl

/-! ### Reading back -/

/-- A solid punctuator ends whatever follows it. -/
theorem endsBefore_solid {text : String} (h : text ∈ solid) (rest : List Char) :
    isLexeme .punctuator text.toList = true ∧ endsBefore .punctuator text.toList rest = true := by
  have hlexemes : ∀ s ∈ solid, isLexeme .punctuator s.toList = true ∧ s.toList ≠ ['.'] := by
    decide
  have hlongest : ∀ s ∈ solid, ∀ p ∈ punctuators, s.toList.length < p.length →
      ¬ s.toList <+: p := by decide
  refine ⟨(hlexemes text h).1, Lexeme.endsBefore_punctuator_iff.2
    ⟨fun hpoint => (hlexemes text h).2 hpoint.1, fun p hp hlength hprefix => ?_⟩⟩
  exact hlongest text h p hp hlength
    (List.prefix_of_prefix_length_le (List.prefix_append _ _) hprefix (Nat.le_of_lt hlength))

/-- A `#` that is not followed by another one ends. -/
theorem endsBefore_hash {d : Char} (h : isNameStart d = true) (rest : List Char) :
    endsBefore .punctuator ['#'] (d :: rest) = true := by
  have hall : ∀ p ∈ punctuators, 1 < p.length → p.head? = some '#' → p = ['#', '#'] := by decide
  refine Lexeme.endsBefore_punctuator_iff.2 ⟨by simp, fun p hp hlength hprefix => ?_⟩
  obtain ⟨c, p, rfl⟩ := List.exists_cons_of_length_pos (Nat.lt_trans Nat.zero_lt_one hlength)
  rw [List.singleton_append, List.cons_prefix_cons] at hprefix
  obtain ⟨rfl, hprefix⟩ := hprefix
  obtain ⟨-, rfl⟩ := List.cons.inj (hall _ hp hlength rfl)
  obtain ⟨rfl, -⟩ := List.cons_prefix_cons.1 hprefix
  cases h

/-- A token that fits before the next one is a lexeme that ends there. -/
theorem endsBefore_of_fits {t : Token} {us : List Token} (h : t.fits us.head? = true) :
    isLexeme t.kind t.text.toList = true ∧
      endsBefore t.kind t.text.toList (written us) = true := by
  unfold fits at h
  cases hk : t.kind with
  | identifier =>
      simp only [hk, Bool.and_eq_true] at h
      have hends := endsWord_written h.2
      refine ⟨h.1, ?_⟩
      unfold endsBefore
      cases hw : written us with
      | nil => rfl
      | cons c cs =>
          simp only [hw, endsWord, List.head?_cons, Option.any_some, Bool.not_eq_true',
            Bool.or_eq_false_iff] at hends
          simp [hends.1]
  | number =>
      simp only [hk, Bool.and_eq_true] at h
      cases ht : t.text.toList with
      | nil => simp [ht, isNumeral] at h
      | cons c cs =>
          simp only [ht, isNumeral, Bool.and_eq_true, List.all_eq_true] at h
          refine ⟨?_, Lexeme.endsBefore_digits (List.forall_mem_cons.2 h.1) (endsWord_written h.2)⟩
          simp [isLexeme, Lexeme.isNumber, h.1.1, Lexeme.continuesNumber_digits h.1.2]
  | literal =>
      simp only [hk, isPlainLiteral] at h
      split at h
      · next cs ht =>
        simp only [Bool.and_eq_true, beq_iff_eq, List.all_eq_true, bne_iff_ne, and_assoc] at h
        obtain ⟨body, rfl⟩ := List.getLast?_eq_some_iff.1 h.1
        rw [List.dropLast_concat] at h
        have hbody : ∀ c ∈ body, c ≠ '\\' ∧ c ≠ '"' ∧ c ≠ '\n' := fun c hc =>
          ⟨(h.2 c hc).1, (h.2 c hc).2.1, (h.2 c hc).2.2.1⟩
        rw [ht]
        exact ⟨Lexeme.closesLiteral_plain hbody (by decide), rfl⟩
      · cases h
  | punctuator =>
      simp only [hk, Bool.or_eq_true, List.contains_eq_mem, decide_eq_true_eq, Bool.and_eq_true,
        beq_iff_eq] at h
      rcases h with h | ⟨ht, h⟩
      · exact endsBefore_solid h (written us)
      -- A `#` ends because a name touches it.
      · cases us with
        | nil => simp at h
        | cons u us =>
            simp only [List.head?_cons, Option.any_some, touchingName, Bool.and_eq_true,
              Bool.not_eq_true'] at h
            cases hu : u.text.toList with
            | nil => simp [hu, isIdentifier] at h
            | cons d ds =>
                have hd : isNameStart d = true := by
                  simp only [hu, isIdentifier, Bool.and_eq_true] at h
                  exact h.2.1
                have hw : written (u :: us) = d :: (ds ++ written us) := by
                  simp [chars, h.1.1, hu]
                rw [ht, hw]
                exact ⟨by decide, endsBefore_hash hd _⟩

theorem endsEach_of_legible {ts : List Token} (h : legible ts = true) : endsEach ts = true := by
  induction ts with
  | nil => rfl
  | cons t ts ih =>
      simp only [legible, legibleBefore_cons, Option.or_none, Bool.and_eq_true] at h
      obtain ⟨hlexeme, hends⟩ := endsBefore_of_fits h.1
      rw [endsEach, hlexeme, hends, ih h.2]
      rfl

/-- **A legible list is read back from its characters.** -/
theorem lexChars_written {ts : List Token} (h : legible ts = true) :
    lexChars (written ts) = .ok ts := by
  exact lexChars_eq_ok_iff.2 (reads_of_endsEach (endsEach_of_legible h))

/-- A text that is an identifier is read as that one token. -/
theorem lex_identifier {text : String} (h : isIdentifier text.toList = true) :
    lex text = .ok [name text] := by
  have hw : written [name text] = text.toList := by simp [chars, name]
  rw [lex, ← hw]
  exact lexChars_written (by simpa [legible, fits, name] using h)

/-- A text that is an identifier spells that one token. -/
theorem ofText?_identifier {text : String} (h : isIdentifier text.toList = true) :
    ofText? text = some (name text) := by
  rw [ofText?, lex_identifier h]

end Token

end VariadicMacros
